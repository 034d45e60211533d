import Emp.Allocator.Words
import Emp.Cow.RemoteWord
import Emp.Lib.BitField

/-!
# The bits of remote page words

A remote page word has 64 bits: the id of a region in the eight highest, the page offset in the
next 54, and two flags.  One flag marks the copy of a word whose page was freed while it was
fetched, the other a pointer to a wrapper, which has the place of the id and the offset; the word of
a free page is one that no id has.

## Main definitions and results

* `RemoteKind` — what a word says.
* `RemoteKind.val` — the word that the code stores for it.
* `RemoteKind.decoded_val` — the code's predicates and accessors find what was stored.
* `remoteWords_spec` — and after a page was released and allocated again.
-/

namespace Emp

/-! ### The accessors -/

def freeRemotePageVal : BitVec 64 := 0xfffffffffffffffc#64

def remotePageNonflagMask : BitVec 64 := 0xfffffffffffffffc#64

def remotePageMridMask : BitVec 64 := 0xff00000000000000#64

def remotePageOffsetMask : BitVec 64 := 0x00fffffffffffffc#64

def remotePageMridShift : ℕ := 56

def remotePageOffsetShift : ℕ := 2

def remotePageCowMask : BitVec 64 := 1#64

def remotePageFreedMask : BitVec 64 := 2#64

section Accessors

variable (val : BitVec 64)

/-- `is_remote_page_free`. -/
def isRemotePageFree : Bool := val == freeRemotePageVal

/-- `is_remote_page_cow`. -/
def isRemotePageCow : Bool := (val &&& remotePageCowMask) != 0#64

/-- `is_remote_page_freed`. -/
def isRemotePageFreed : Bool := (val &&& remotePageFreedMask) != 0#64

/-- `__get_remote_page_mrid`. -/
def getRemotePageMrid : BitVec 64 := (val &&& remotePageMridMask) >>> remotePageMridShift

/-- `__get_remote_page_offset`. -/
def getRemotePageOffset : BitVec 64 := (val &&& remotePageOffsetMask) >>> remotePageOffsetShift

/-- `get_remote_page_cow`. -/
def getRemotePageCow : BitVec 64 := val &&& remotePageNonflagMask

/-- `set_remote_page_freed`. -/
def setRemotePageFreed : BitVec 64 := val ||| remotePageFreedMask

/-- `set_remote_page_cow`. -/
def setRemotePageCow (cow : BitVec 64) : BitVec 64 :=
  (cow &&& remotePageNonflagMask) ||| remotePageCowMask

/-- `make_remote_page_val`; the id is a signed integer of 32 bits. -/
def makeRemotePageVal (mrid : BitVec 32) (offset : BitVec 64) : BitVec 64 :=
  (mrid.signExtend 64 <<< remotePageMridShift) ||| (offset <<< remotePageOffsetShift)

end Accessors

/-! ### What a word says -/

/-- The kinds of words: no page, a page, a pointer to a wrapper, and the copy of a word whose page
was freed meanwhile. -/
inductive RemoteKind
  | free
  | page (mrid offset : ℕ)
  | cow (crp : ℕ)
  | freed (mrid offset : ℕ)
  deriving DecidableEq, Repr

namespace RemoteKind

/-- What the code stores: an offset has 54 bits, and a wrapper is aligned. -/
def Storable : RemoteKind → Prop
  | free => True
  | page mrid offset => mrid < maxMrid ∧ offset < 2 ^ 54
  | cow crp => crp < 2 ^ 64 ∧ 4 ∣ crp
  | freed mrid offset => mrid < maxMrid ∧ offset < 2 ^ 54

/-- The word that is stored. -/
def val : RemoteKind → BitVec 64
  | free => freeRemotePageVal
  | page mrid offset => makeRemotePageVal (.ofNat 32 mrid) (.ofNat 64 offset)
  | cow crp => setRemotePageCow (.ofNat 64 crp)
  | freed mrid offset => setRemotePageFreed (makeRemotePageVal (.ofNat 32 mrid) (.ofNat 64 offset))

/-- What the predicates and the accessors say about a word. -/
structure Decoded (k : RemoteKind) (val : BitVec 64) : Prop where
  free : isRemotePageFree val = true ↔ k = .free
  cow : isRemotePageCow val = true ↔ ∃ crp, k = .cow crp
  freed : isRemotePageFreed val = true ↔ ∃ mrid offset, k = .freed mrid offset
  crp : ∀ crp, k = .cow crp → (getRemotePageCow val).toNat = crp
  page : ∀ mrid offset, k = .page mrid offset ∨ k = .freed mrid offset →
    (getRemotePageMrid val).toNat = mrid ∧ (getRemotePageOffset val).toNat = offset

end RemoteKind

/-! ### The fields of a word -/

section Fields

variable {val : BitVec 64} {mrid offset crp : ℕ}

theorem getRemotePageMrid_eq : getRemotePageMrid val = BitField.get 56 64 val := by
  have hmask : remotePageMridMask = BitField.mask 64 56 64 := by decide
  rw [getRemotePageMrid, hmask]
  rfl

theorem getRemotePageOffset_eq : getRemotePageOffset val = BitField.get 2 56 val := by
  have hmask : remotePageOffsetMask = BitField.mask 64 2 56 := by decide
  rw [getRemotePageOffset, hmask]
  rfl

theorem isRemotePageCow_eq : isRemotePageCow val = val.getLsbD 0 := by
  have hmask : remotePageCowMask = BitVec.twoPow 64 0 := by decide
  rw [isRemotePageCow, hmask, BitVec.and_twoPow]
  cases val.getLsbD 0 <;> decide

theorem isRemotePageFreed_eq : isRemotePageFreed val = val.getLsbD 1 := by
  have hmask : remotePageFreedMask = BitVec.twoPow 64 1 := by decide
  rw [isRemotePageFreed, hmask, BitVec.and_twoPow]
  cases val.getLsbD 1 <;> decide

theorem toNat_signExtend_mrid (h : mrid < maxMrid) :
    ((BitVec.ofNat 32 mrid).signExtend 64).toNat = mrid := by
  have hlt : mrid < 254 := h
  have htoNat : (BitVec.ofNat 32 mrid).toNat = mrid := by
    rw [BitVec.toNat_ofNat]
    exact Nat.mod_eq_of_lt (by omega)
  have hmsb : (BitVec.ofNat 32 mrid).msb = false := by
    rw [BitVec.msb_eq_false_iff_two_mul_lt, htoNat]
    omega
  rw [BitVec.signExtend_eq_setWidth_of_msb_false hmsb, BitVec.toNat_setWidth, htoNat]
  exact Nat.mod_eq_of_lt (by omega)

theorem toNat_offset (h : offset < 2 ^ 54) : (BitVec.ofNat 64 offset).toNat = offset := by
  rw [BitVec.toNat_ofNat]
  exact Nat.mod_eq_of_lt (by omega)

/-- Marking a word as freed changes neither its id nor its offset. -/
theorem setRemotePageFreed_fields (val : BitVec 64) :
    getRemotePageMrid (setRemotePageFreed val) = getRemotePageMrid val ∧
      getRemotePageOffset (setRemotePageFreed val) = getRemotePageOffset val := by
  have hmrid : BitField.get 56 64 remotePageFreedMask = 0#64 := by decide
  have hoffset : BitField.get 2 56 remotePageFreedMask = 0#64 := by decide
  rw [getRemotePageMrid_eq, getRemotePageMrid_eq, getRemotePageOffset_eq, getRemotePageOffset_eq,
    setRemotePageFreed, BitField.get_or, BitField.get_or, hmrid, hoffset, BitVec.or_zero,
    BitVec.or_zero]
  exact ⟨rfl, rfl⟩

/-- The id and the offset are where they are looked for. -/
theorem makeRemotePageVal_fields (hm : mrid < maxMrid) (ho : offset < 2 ^ 54) :
    (getRemotePageMrid (makeRemotePageVal (.ofNat 32 mrid) (.ofNat 64 offset))).toNat = mrid ∧
      (getRemotePageOffset (makeRemotePageVal (.ofNat 32 mrid) (.ofNat 64 offset))).toNat =
        offset := by
  have hmrid := toNat_signExtend_mrid hm
  have hoffset := toNat_offset ho
  have hm' : mrid < 254 := hm
  have ho' : (BitVec.ofNat 64 offset).toNat < 2 ^ 54 := by rwa [hoffset]
  rw [getRemotePageMrid_eq, getRemotePageOffset_eq, makeRemotePageVal, BitField.get_or,
    BitField.get_or]
  constructor
  · rw [remotePageMridShift, remotePageOffsetShift,
      BitField.get_shiftLeft (by rw [hmrid]; omega) le_rfl,
      BitField.get_shiftLeft_below (n := 54) ho' le_rfl, BitVec.or_zero, hmrid]
  · rw [remotePageMridShift, remotePageOffsetShift, BitField.get_shiftLeft_above le_rfl,
      BitField.get_shiftLeft ho' (by decide), BitVec.zero_or, hoffset]

/-- The flags of a plain word are clear. -/
theorem makeRemotePageVal_flags (mrid : BitVec 32) (offset : BitVec 64) :
    (makeRemotePageVal mrid offset).getLsbD 0 = false ∧
      (makeRemotePageVal mrid offset).getLsbD 1 = false := by
  simp [makeRemotePageVal, remotePageMridShift, remotePageOffsetShift]

/-- No id that is allotted belongs to the word of a free page. -/
theorem isRemotePageFree_of_lt (h : (getRemotePageMrid val).toNat < maxMrid) :
    isRemotePageFree val = false := by
  rw [isRemotePageFree, beq_eq_false_iff_ne]
  rintro rfl
  exact absurd h (by decide)

/-- An aligned pointer keeps its value beside the flag. -/
theorem setRemotePageCow_fields (hlt : crp < 2 ^ 64) (halign : 4 ∣ crp) :
    (getRemotePageCow (setRemotePageCow (.ofNat 64 crp))).toNat = crp ∧
      (setRemotePageCow (.ofNat 64 crp)).getLsbD 0 = true ∧
        (setRemotePageCow (.ofNat 64 crp)).getLsbD 1 = false := by
  have hmask : remotePageNonflagMask = BitField.mask 64 2 64 := by decide
  have hbits : ∀ i, i < 2 → crp.testBit i = false := by
    obtain ⟨q, rfl⟩ := halign
    intro i hi
    rw [show 4 * q = 2 ^ 2 * q from rfl, Nat.testBit_two_pow_mul]
    simp [hi]
  have hbit : ∀ i, (setRemotePageCow (.ofNat 64 crp)).getLsbD i =
      ((decide (i < 64) && decide (2 ≤ i) && crp.testBit i) || decide (i = 0)) := by
    intro i
    rw [setRemotePageCow, BitVec.getLsbD_or, BitVec.getLsbD_and, hmask, BitField.getLsbD_mask,
      BitVec.getLsbD_ofNat, remotePageCowMask, BitVec.getLsbD_one]
    by_cases hi : i < 64
    · simp [hi, Bool.and_comm]
    · have hpos : i ≠ 0 := by omega
      simp [hi, hpos]
  refine ⟨?_, ?_, ?_⟩
  · have heq : getRemotePageCow (setRemotePageCow (.ofNat 64 crp)) = .ofNat 64 crp := by
      refine BitVec.eq_of_getLsbD_eq fun i hi => ?_
      rw [getRemotePageCow, BitVec.getLsbD_and, hbit, hmask, BitField.getLsbD_mask,
        BitVec.getLsbD_ofNat]
      by_cases hle : 2 ≤ i
      · have hpos : i ≠ 0 := by omega
        simp [hi, hle, hpos]
      · rw [hbits i (not_le.mp hle)]
        simp [hle]
    rw [heq, BitVec.toNat_ofNat, Nat.mod_eq_of_lt hlt]
  · rw [hbit]
    rfl
  · rw [hbit]
    rfl

end Fields

namespace RemoteKind

/-- **What is stored is what is found.** -/
theorem decoded_val {k : RemoteKind} (h : k.Storable) : k.Decoded k.val := by
  cases k with
  | free =>
      refine ⟨by decide, ?_, ?_, by simp, by simp⟩
      · exact iff_of_false (by decide) (by simp)
      · exact iff_of_false (by decide) (by simp)
  | page mrid offset =>
      have hfields := makeRemotePageVal_fields h.1 h.2
      obtain ⟨hcow, hfreed⟩ := makeRemotePageVal_flags (.ofNat 32 mrid) (.ofNat 64 offset)
      refine ⟨?_, ?_, ?_, by simp, ?_⟩
      · rw [val, isRemotePageFree_of_lt (by rw [hfields.1]; exact h.1)]
        simp
      · rw [val, isRemotePageCow_eq, hcow]
        simp
      · rw [val, isRemotePageFreed_eq, hfreed]
        simp
      · rintro m o (heq | heq)
        · obtain ⟨rfl, rfl⟩ := RemoteKind.page.inj heq
          exact hfields
        · cases heq
  | cow crp =>
      obtain ⟨hcrp, hcow, hfreed⟩ := setRemotePageCow_fields h.1 h.2
      refine ⟨?_, ?_, ?_, ?_, by simp⟩
      · have hne : setRemotePageCow (.ofNat 64 crp) ≠ freeRemotePageVal := by
          intro heq
          rw [heq] at hcow
          exact absurd hcow (by decide)
        rw [val, isRemotePageFree, beq_false_of_ne hne]
        simp
      · rw [val, isRemotePageCow_eq, hcow]
        simp
      · rw [val, isRemotePageFreed_eq, hfreed]
        simp
      · intro p heq
        rw [← RemoteKind.cow.inj heq]
        exact hcrp
  | freed mrid offset =>
      have hfields := makeRemotePageVal_fields h.1 h.2
      obtain ⟨hcow, -⟩ := makeRemotePageVal_flags (.ofNat 32 mrid) (.ofNat 64 offset)
      obtain ⟨hmrid, hoffset⟩ := setRemotePageFreed_fields
        (makeRemotePageVal (.ofNat 32 mrid) (.ofNat 64 offset))
      rw [← hmrid, ← hoffset] at hfields
      refine ⟨?_, ?_, ?_, by simp, ?_⟩
      · rw [val, isRemotePageFree_of_lt (by rw [hfields.1]; exact h.1)]
        simp
      · rw [val, isRemotePageCow_eq, setRemotePageFreed, BitVec.getLsbD_or, hcow]
        simp [remotePageFreedMask]
      · rw [val, isRemotePageFreed_eq, setRemotePageFreed, BitVec.getLsbD_or]
        simp [remotePageFreedMask]
      · rintro m o (heq | heq)
        · cases heq
        · obtain ⟨rfl, rfl⟩ := RemoteKind.freed.inj heq
          exact hfields

theorem getRemotePageCow_val {crp : ℕ} (h : (cow crp).Storable) :
    getRemotePageCow (cow crp).val = .ofNat 64 crp := by
  refine BitVec.eq_of_toNat_eq ?_
  rw [(decoded_val h).crp crp rfl, BitVec.toNat_ofNat, Nat.mod_eq_of_lt h.1]

end RemoteKind

/-! ### Releasing a page -/

/-- What the word of a descriptor that is no copy says. -/
def RemotePage.kind : RemotePage → RemoteKind
  | .free => .free
  | .page mrid offset => .page mrid offset

/-- `__remote_page_release`, of the page that a stored word names. -/
def remotePageRelease (s : RemoteMem) (val : BitVec 64) : RemoteMem :=
  let mrid := (getRemotePageMrid val).toNat
  let mr := s.mr mrid
  let pgoff := (getRemotePageOffset val).toNat >>> mr.dmaOrder
  s.setMr mrid
    { mr with
      allocLen := mr.allocLen - (1 <<< mr.dmaOrder : ℕ)
      allocBitmap := Function.update mr.allocBitmap pgoff true
      freeStart := if pgoff < mr.freeStart then pgoff else mr.freeStart }

theorem RemoteMem.Fits.storable {s : RemoteMem} (h : s.Fits) (g : ℕ) :
    (s.remotePage g).kind.Storable := by
  cases hw : s.remotePage g with
  | free => trivial
  | page mrid offset => exact h.word g mrid offset hw

/-- The stored word names the page that is released; and so does its copy that says so. -/
theorem freeRemotePage_eq_release {s : RemoteMem} {g : ℕ} (h : s.Fits)
    (hne : s.remotePage g ≠ .free) :
    freeRemotePage s g =
        (remotePageRelease s (s.remotePage g).kind.val).setWord g .free ∧
      remotePageRelease s (setRemotePageFreed (s.remotePage g).kind.val) =
        remotePageRelease s (s.remotePage g).kind.val := by
  cases hw : s.remotePage g with
  | free => exact absurd hw hne
  | page mrid offset =>
      obtain ⟨hmrid, hoffset⟩ := makeRemotePageVal_fields (h.word g mrid offset hw).1
        (h.word g mrid offset hw).2
      obtain ⟨hmrid', hoffset'⟩ := setRemotePageFreed_fields (RemotePage.page mrid offset).kind.val
      constructor
      · simp only [freeRemotePage, hw, remotePageRelease, RemotePage.kind, RemoteKind.val, hmrid,
          hoffset]
      · rw [remotePageRelease, hmrid', hoffset', ← remotePageRelease]

/-! ### Words that are shared by copies -/

/-- The words of descriptors, and the wrappers by their addresses. -/
structure CowVals where
  val : ℕ → BitVec 64
  crp : BitVec 64 → Option (ℕ × BitVec 64)

namespace CowVals

variable (v : CowVals) (d : ℕ)

def set (val : BitVec 64) (k : BitVec 64) (c : Option (ℕ × BitVec 64)) : CowVals :=
  ⟨Function.update v.val d val, Function.update v.crp k c⟩

/-- The word of `d` points to the wrapper at `k`, which counts it. -/
def refer (k : BitVec 64) : Option CowVals :=
  (v.crp k).map fun c => v.set d (setRemotePageCow k) k (some (c.1 + 1, c.2))

/-- `get_cow_remote_page`, with the wrapper that the allocation returns, if it does. -/
def getCowRemotePage (old new : ℕ) (alloc : Option (BitVec 64)) : Option CowVals :=
  if isRemotePageCow (v.val old) then v.refer new (getRemotePageCow (v.val old))
  else alloc.bind fun k => (v.set old (setRemotePageCow k) k (some (1, v.val old))).refer new k

/-- `put_cow_remote_page` and `__put_cow_remote_page`. -/
def putCowRemotePage : CowVals :=
  if isRemotePageCow (v.val d) then
    match v.crp (getRemotePageCow (v.val d)) with
    | none => v
    | some c =>
      if c.1 = 1 then v.set d c.2 (getRemotePageCow (v.val d)) none
      else v.set d freeRemotePageVal (getRemotePageCow (v.val d)) (some (c.1 - 1, c.2))
  else v

end CowVals

/-- What the word of a descriptor says. -/
def CowWord.kind : CowWord → RemoteKind
  | .plain rp => rp.kind
  | .cow crp => .cow crp

/-- The words are stored. -/
structure Stored (s : CowWords) (v : CowVals) : Prop where
  word : ∀ d, v.val d = (s.word d).kind.val
  storable : ∀ d, (s.word d).kind.Storable
  crp : ∀ k, (RemoteKind.cow k).Storable →
    v.crp (.ofNat 64 k) = (s.crp k).map fun c => (c.refcnt, c.remotePage.kind.val)
  wrapped : ∀ k c, s.crp k = some c → c.remotePage.kind.Storable

namespace Stored

variable {s : CowWords} {v : CowVals} {d k : ℕ} {w : CowWord}

theorem isRemotePageCow (h : Stored s v) (d : ℕ) :
    isRemotePageCow (v.val d) = true ↔ ∃ k, s.word d = .cow k := by
  rw [h.word, (RemoteKind.decoded_val (h.storable d)).cow]
  cases s.word d with
  | plain rp => cases rp <;> simp [CowWord.kind, RemotePage.kind]
  | cow k => simp [CowWord.kind]

theorem set (h : Stored s v) (hw : w.kind.Storable) (hk : (RemoteKind.cow k).Storable)
    {c : Option CowRemotePage} (hc : ∀ c', c = some c' → c'.remotePage.kind.Storable) :
    Stored (s.set d w k c) (v.set d w.kind.val (.ofNat 64 k)
      (c.map fun c => (c.refcnt, c.remotePage.kind.val))) := by
  refine ⟨fun d' => ?_, fun d' => ?_, fun k' hk' => ?_, fun k' c' hc' => ?_⟩
  · by_cases hd : d' = d
    · rw [hd]
      simp [CowVals.set, CowWords.set]
    · simp only [CowVals.set, CowWords.set, Function.update_of_ne hd]
      exact h.word d'
  · by_cases hd : d' = d
    · rw [hd]
      simpa [CowWords.set] using hw
    · simp only [CowWords.set, Function.update_of_ne hd]
      exact h.storable d'
  · by_cases heq : k' = k
    · rw [heq]
      simp [CowVals.set, CowWords.set]
    · have hne : BitVec.ofNat 64 k' ≠ BitVec.ofNat 64 k := by
        intro hbv
        have hnat := congrArg BitVec.toNat hbv
        rw [BitVec.toNat_ofNat, BitVec.toNat_ofNat, Nat.mod_eq_of_lt hk'.1,
          Nat.mod_eq_of_lt hk.1] at hnat
        exact heq hnat
      simp only [CowVals.set, CowWords.set, Function.update_of_ne hne, Function.update_of_ne heq]
      exact h.crp k' hk'
  · by_cases heq : k' = k
    · rw [heq] at hc'
      simp only [CowWords.set, Function.update_self] at hc'
      exact hc c' hc'
    · simp only [CowWords.set, Function.update_of_ne heq] at hc'
      exact h.wrapped k' c' hc'

theorem refer (h : Stored s v) (hk : (RemoteKind.cow k).Storable) :
    Option.Rel Stored (s.refer d k) (v.refer d (.ofNat 64 k)) := by
  rw [CowWords.refer, CowVals.refer, h.crp k hk]
  cases hc : s.crp k with
  | none => exact .none
  | some c =>
      refine .some (h.set (w := .cow k) hk hk fun c' hc' => ?_)
      rw [← Option.some.inj hc']
      exact h.wrapped k c hc

/-- `get_cow_remote_page` shares the page that the stored words name. -/
theorem getCowRemotePage (h : Stored s v) (old new : ℕ) {alloc : Option ℕ}
    (halloc : ∀ k, alloc = some k → (RemoteKind.cow k).Storable) :
    Option.Rel Stored (s.getCowRemotePage old new alloc)
      (v.getCowRemotePage old new (alloc.map (.ofNat 64))) := by
  have hcow := h.isRemotePageCow old
  have hstorable := h.storable old
  have hval := h.word old
  rw [CowWords.getCowRemotePage, CowVals.getCowRemotePage]
  cases hw : s.word old with
  | cow k =>
      rw [hw] at hstorable hval
      have hk : (RemoteKind.cow k).Storable := hstorable
      rw [if_pos (hcow.mpr ⟨k, hw⟩), hval, CowWord.kind, RemoteKind.getRemotePageCow_val hk]
      exact h.refer hk
  | plain rp =>
      rw [hw] at hstorable hval
      have hnot : ¬ Emp.isRemotePageCow (v.val old) = true := by
        rw [hcow, hw]
        simp
      rw [if_neg hnot, hval]
      cases alloc with
      | none => exact .none
      | some k =>
          have hk := halloc k rfl
          have hset := h.set (d := old) (w := .cow k) hk hk (c := some ⟨1, rp⟩) fun c' hc' => by
            rw [← Option.some.inj hc']
            exact hstorable
          exact hset.refer hk

/-- `put_cow_remote_page` leaves a plain word: the last reference gets the page back. -/
theorem putCowRemotePage (h : Stored s v) (d : ℕ) :
    Stored (s.putCowRemotePage d) (v.putCowRemotePage d) := by
  have hcow := h.isRemotePageCow d
  have hstorable := h.storable d
  have hval := h.word d
  rw [CowWords.putCowRemotePage, CowVals.putCowRemotePage]
  cases hw : s.word d with
  | plain rp =>
      have hnot : ¬ Emp.isRemotePageCow (v.val d) = true := by
        rw [hcow, hw]
        simp
      rw [if_neg hnot]
      exact h
  | cow k =>
      rw [hw] at hstorable hval
      have hk : (RemoteKind.cow k).Storable := hstorable
      rw [if_pos (hcow.mpr ⟨k, hw⟩), hval, CowWord.kind, RemoteKind.getRemotePageCow_val hk,
        h.crp k hk]
      cases hc : s.crp k with
      | none =>
          simp only [hc, Option.map_none]
          exact h
      | some c =>
          have hpage := h.wrapped k c hc
          simp only [hc, Option.map_some]
          by_cases hlast : c.refcnt = 1
          · rw [if_pos hlast, if_pos hlast]
            exact h.set (w := .plain c.remotePage) (c := none) hpage hk fun c' hc' => by cases hc'
          · rw [if_neg hlast, if_neg hlast]
            refine h.set (w := .plain .free) (c := some ⟨c.refcnt - 1, c.remotePage⟩) trivial hk ?_
            intro c' hc'
            rw [← Option.some.inj hc']
            exact hpage

end Stored

/-- A put leaves a plain word behind: that of the page for the last reference, a free one for the
others. -/
theorem word_putCowRemotePage {s : CowWords} (h : s.Counted) (d : ℕ) :
    ∃ rp, (s.putCowRemotePage d).word d = .plain rp := by
  rw [CowWords.putCowRemotePage]
  cases hw : s.word d with
  | plain rp => exact ⟨rp, hw⟩
  | cow k =>
      obtain ⟨c, hc⟩ := Option.isSome_iff_exists.mp (h.known d k hw).2
      simp only [hc]
      split
      · exact ⟨c.remotePage, Function.update_self ..⟩
      · exact ⟨.free, Function.update_self ..⟩

/-! ### The result -/

/-- **The bits of remote page words.**  The code's predicates tell the kinds of words apart and its
accessors find what was stored.  Marking a copy as freed changes neither its id nor its offset.
Whatever was allocated and released before: when a page is released, the region and the page are
those that its stored word names, also in a marked copy; its word is free then, and a plain one
again when its block was allocated.  Words that are shared and unshared stay what they say, and an
unshared one is plain. -/
theorem remoteWords_spec :
    (∀ k : RemoteKind, k.Storable → k.Decoded k.val) ∧
    (∀ val, getRemotePageMrid (setRemotePageFreed val) = getRemotePageMrid val ∧
      getRemotePageOffset (setRemotePageFreed val) = getRemotePageOffset val) ∧
    (∀ sbOrder s, Transition.Reach (fun s => AllocInit sbOrder s ∧ s.Fits) (allocStep sbOrder) s →
      ∀ g, s.remotePage g ≠ .free →
        (freeRemotePage s g = (remotePageRelease s (s.remotePage g).kind.val).setWord g .free ∧
          remotePageRelease s (setRemotePageFreed (s.remotePage g).kind.val) =
            remotePageRelease s (s.remotePage g).kind.val) ∧
        ∀ cfg head order s', g ∈ gpasOf head order →
          allocRemotePage cfg sbOrder (freeRemotePage s g) (gpasOf head order) = some (s', true) →
            ∃ mrid offset, s'.remotePage g = .page mrid offset ∧
              (RemoteKind.page mrid offset).Storable) ∧
    ∀ s v, Stored s v →
      (∀ old new alloc, (∀ k, alloc = some k → (RemoteKind.cow k).Storable) →
        Option.Rel Stored (s.getCowRemotePage old new alloc)
          (v.getCowRemotePage old new (alloc.map (.ofNat 64)))) ∧
      ∀ d, Stored (s.putCowRemotePage d) (v.putCowRemotePage d) ∧
        (s.Counted → ∃ rp, (s.putCowRemotePage d).word d = .plain rp) := by
  refine ⟨fun k hk => RemoteKind.decoded_val hk, setRemotePageFreed_fields,
    fun sbOrder s hs g hne => ?_, fun s v h => ⟨fun old new alloc halloc => ?_, fun d => ?_⟩⟩
  · have hfits := fits_of_reach hs
    refine ⟨freeRemotePage_eq_release hfits hne, fun cfg head order s' hg halloc => ?_⟩
    have hserved := allocRemotePage_words halloc
    have hfits' := hserved.1.fits (fits_freeRemotePage hfits g)
    cases hw : s'.remotePage g with
    | free => exact absurd hw (hserved.2 rfl g hg)
    | page mrid offset => exact ⟨mrid, offset, rfl, hfits'.word g mrid offset hw⟩
  · exact h.getCowRemotePage old new halloc
  · exact ⟨h.putCowRemotePage d, fun hc => word_putCowRemotePage hc d⟩

/-- The highest id and offset; and the page of the third subblock of a block of eight, which is
released and allocated again. -/
theorem remoteWords_spec_oneRegion :
    (RemoteKind.page 253 (2 ^ 54 - 1)).Decoded (RemoteKind.page 253 (2 ^ 54 - 1)).val ∧
      ∃ s s', allocStep 5 oneRegion (.alloc (allocConfig .diffMr) 0 3) = some s ∧
        allocRemotePage (allocConfig .diffMr) 5 (freeRemotePage s 2) (gpasOf 0 3) =
          some (s', true) ∧ ∃ mrid offset, s'.remotePage 2 = .page mrid offset ∧
          (RemoteKind.page mrid offset).Storable := by
  obtain ⟨hdecoded, -, hrelease, -⟩ := remoteWords_spec
  have hfits : oneRegion.Fits := by
    refine ⟨fun id mr hmr => ?_, fun g mrid offset hg => by cases hg⟩
    by_cases heq : id = 0
    · simp only [oneRegion, if_pos heq] at hmr
      rw [← Option.some.inj hmr]
      exact ⟨by decide, by decide⟩
    · simp only [oneRegion, if_neg heq] at hmr
      cases hmr
  have hreach : ∀ s, allocStep 5 oneRegion (.alloc (allocConfig .diffMr) 0 3) = some s →
      Transition.Reach (fun s => AllocInit 5 s ∧ s.Fits) (allocStep 5) s := fun s hs =>
    .next (.start ⟨oneRegion_init, hfits⟩) trivial hs
  refine ⟨hdecoded _ ⟨by decide, by decide⟩, _, _, rfl, rfl, ?_⟩
  exact (hrelease 5 _ (hreach _ rfl) 2 (by decide)).2 (allocConfig .diffMr) 0 3 _
    (by decide) rfl

end Emp
