import Emp.Lib.Census
import Emp.RemotePage
import Mathlib.Data.Nat.Count
import Mathlib.Logic.Function.Basic
import Mathlib.Tactic.SplitIfs

/-!
# Remote page words shared by copies

When a block is copied while its contents are remote, its remote pages are not copied: each word
is put into a counted wrapper, and the words of the old and the new descriptor point to it.  A word
that is dropped takes its reference along; the last one gets the page back.

## Main definitions

* `CowWord`, `CowRemotePage`, `CowWords` — the words, the wrappers, and all of them.
* `CowWords.getCowRemotePageBlock` — the words of a block are shared with its copy.
* `CowWords.Counted` — a wrapper counts the words that point to it.
* `CowWords.getCowRemotePageBlock_iff` — when the block keeps its words if this fails.
-/

namespace Emp

/-- A remote page word: a plain one, or a pointer to a wrapper. -/
inductive CowWord
  | plain (rp : RemotePage)
  | cow (crp : ℕ)
  deriving DecidableEq, Repr

/-- `struct cow_remote_page`. -/
structure CowRemotePage where
  refcnt : ℕ
  remotePage : RemotePage
  deriving DecidableEq, Repr

/-- The words of `numWords` descriptors, and the wrappers that are allocated. -/
structure CowWords where
  numWords : ℕ
  word : ℕ → CowWord
  crp : ℕ → Option CowRemotePage

namespace CowWords

variable (s : CowWords) (d : ℕ)

/-- `get_remote_page_val`: the page that a word names. -/
def pageAt : RemotePage :=
  match s.word d with
  | .plain rp => rp
  | .cow k => (s.crp k).elim .free CowRemotePage.remotePage

/-- How many words share the page of a word. -/
def refsAt : ℕ :=
  match s.word d with
  | .plain _ => 1
  | .cow k => (s.crp k).elim 0 CowRemotePage.refcnt

/-- The word of `d` and the wrapper `k` change. -/
def set (w : CowWord) (k : ℕ) (c : Option CowRemotePage) : CowWords :=
  { s with word := Function.update s.word d w, crp := Function.update s.crp k c }

/-- The word of `d` points to the wrapper `k`, which counts it. -/
def refer (k : ℕ) : Option CowWords :=
  (s.crp k).map fun c => s.set d (.cow k) k (some { c with refcnt := c.refcnt + 1 })

/-- `get_cow_remote_page`, with the wrapper that the allocation returns, if it does. -/
def getCowRemotePage (old new : ℕ) (alloc : Option ℕ) : Option CowWords :=
  match s.word old with
  | .plain rp => alloc.bind fun k => (s.set old (.cow k) k (some ⟨1, rp⟩)).refer new k
  | .cow k => s.refer new k

/-- `__put_cow_remote_page`. -/
def putCowRemotePage : CowWords :=
  match s.word d with
  | .plain _ => s
  | .cow k =>
    match s.crp k with
    | none => s
    | some c =>
      if c.refcnt = 1 then s.set d (.plain c.remotePage) k none
      -- a writeback will allocate another page
      else s.set d (.plain .free) k (some { c with refcnt := c.refcnt - 1 })

/-- `__error_get_cow_remote_page_block`: the first `n` subblocks of the blocks at `old` and `new`. -/
def errorGetCowRemotePageBlock (old new : ℕ) : ℕ → CowWords
  | 0 => s
  | i + 1 => ((errorGetCowRemotePageBlock old new i).putCowRemotePage (new + i)).putCowRemotePage
      (old + i)

/-- The loop of `get_cow_remote_page_block` over the first `n` subblocks; the first component tells
whether all of them got their wrapper. -/
def getCowRemotePageBlock (old new : ℕ) (alloc : ℕ → Option ℕ) : ℕ → Bool × CowWords
  | 0 => (true, s)
  | i + 1 =>
    match getCowRemotePageBlock old new alloc i with
    | (false, s') => (false, s')
    | (true, s') =>
      match s'.getCowRemotePage (old + i) (new + i) (alloc i) with
      | some s'' => (true, s'')
      | none => (false, s'.errorGetCowRemotePageBlock old new i)

/-- Every wrapper counts the words that point to it, and there are no others. -/
structure Counted (s : CowWords) : Prop where
  refcnt : ∀ k c, s.crp k = some c → c.refcnt = Nat.count (fun d => s.word d = .cow k) s.numWords
  pos : ∀ k c, s.crp k = some c → 0 < c.refcnt
  known : ∀ d k, s.word d = .cow k → d < s.numWords ∧ (s.crp k).isSome

/-- The blocks at `old` and `new` with `n` subblocks are apart, and the new one has no words yet. -/
structure Blocks (s : CowWords) (old new n : ℕ) : Prop where
  old_le : old + n ≤ s.numWords
  new_le : new + n ≤ s.numWords
  apart : old + n ≤ new ∨ new + n ≤ old
  free : ∀ i < n, s.word (new + i) = .plain .free

/-- The allocations return wrappers that are not in use. -/
structure Fresh (s : CowWords) (alloc : ℕ → Option ℕ) (n : ℕ) : Prop where
  unused : ∀ i < n, ∀ k, alloc i = some k → s.crp k = none
  distinct : ∀ i < n, ∀ j < n, ∀ k, alloc i = some k → alloc j = some k → i = j

/-- What is promised: the old and the new words share a wrapper each, or nothing has changed.
Either way no other descriptor loses its page, and all references are counted. -/
structure BlockOk (s : CowWords) (old new n : ℕ) (r : Bool × CowWords) : Prop where
  counted : r.2.Counted
  shared : r.1 = true → ∀ i < n, ∃ k, r.2.word (old + i) = .cow k ∧ r.2.word (new + i) = .cow k ∧
    r.2.pageAt (old + i) = s.pageAt (old + i) ∧ r.2.pageAt (new + i) = s.pageAt (old + i)
  other : ∀ d, (∀ i < n, d ≠ old + i ∧ d ≠ new + i) → r.2.word d = s.word d ∧ r.2.pageAt d = s.pageAt d
  kept : r.1 = false → ∀ d, r.2.pageAt d = s.pageAt d ∧ r.2.refsAt d = s.refsAt d

/-- The wrapper of the subblock cannot be allocated. -/
def FailsAt (s : CowWords) (old : ℕ) (alloc : ℕ → Option ℕ) (i : ℕ) : Prop :=
  (∃ rp, s.word (old + i) = .plain rp) ∧ alloc i = none

/-- No allocation fails behind a word whose page is shared already. -/
def FailsUnshared (s : CowWords) (old n : ℕ) (alloc : ℕ → Option ℕ) : Prop :=
  ∀ j < n, s.FailsAt old alloc j → (∀ i < j, ¬ s.FailsAt old alloc i) →
    ∀ i < j, s.refsAt (old + i) = 1

variable {s s' : CowWords} {d e k old new n : ℕ} {c : CowRemotePage}

/-! ### One word -/

theorem refsAt_of_plain {rp : RemotePage} (h : s.word d = .plain rp) : s.refsAt d = 1 := by
  simp only [refsAt, h]

theorem refsAt_of_crp (hd : s.word d = .cow k) (hc : s.crp k = some c) : s.refsAt d = c.refcnt := by
  simp only [refsAt, hd, hc, Option.elim_some]

theorem pageAt_of_crp (hd : s.word d = .cow k) (hc : s.crp k = some c) : s.pageAt d = c.remotePage := by
  simp only [pageAt, hd, hc, Option.elim_some]

theorem pageAt_of_plain {rp : RemotePage} (h : s.word d = .plain rp) : s.pageAt d = rp := by
  simp only [pageAt, h]

theorem exists_crp (h : s.Counted) (hd : s.word d = .cow k) : ∃ c, s.crp k = some c :=
  Option.isSome_iff_exists.mp (h.known d k hd).2

/-- Two words that point to one wrapper count at least two. -/
theorem two_le_refcnt (h : s.Counted) (hd : s.word d = .cow k) (he : s.word e = .cow k) (hne : d ≠ e)
    (hc : s.crp k = some c) : 2 ≤ c.refcnt := by
  rw [h.refcnt k c hc]
  have hout := Census.count_remove (q := fun i => s.word i = .cow k ∧ i ≠ d) (h.known d k hd).1 hd
    fun i _ => Iff.rfl
  have hpos : 0 < Nat.count (fun i => s.word i = .cow k ∧ i ≠ d) s.numWords :=
    Census.count_pos (h.known e k he).1 ⟨he, hne.symm⟩
  omega

/-- A wrapper that counts one is that of one word. -/
theorem eq_of_refcnt_one (h : s.Counted) (hc : s.crp k = some c) (hone : c.refcnt = 1)
    (hd : s.word d = .cow k) (he : s.word e = .cow k) : d = e := by
  by_contra hne
  have htwo := two_le_refcnt h hd he hne hc
  omega

section Set

variable {w : CowWord} {o : Option CowRemotePage}

@[simp] theorem word_set_self : (s.set d w k o).word d = w := Function.update_self ..

@[simp] theorem crp_set_self : (s.set d w k o).crp k = o := Function.update_self ..

theorem word_set_of_ne (h : e ≠ d) : (s.set d w k o).word e = s.word e := Function.update_of_ne h ..

theorem crp_set_of_ne {k' : ℕ} (h : k' ≠ k) : (s.set d w k o).crp k' = s.crp k' :=
  Function.update_of_ne h ..

/-- How many words point to a wrapper when one of them changes. -/
theorem count_set (hd : d < s.numWords) (k' : ℕ) :
    Nat.count (fun e => (s.set d w k o).word e = .cow k') s.numWords +
        (if s.word d = .cow k' then 1 else 0) =
      Nat.count (fun e => s.word e = .cow k') s.numWords + if w = .cow k' then 1 else 0 := by
  have hchange := Census.count_change (p := fun e => s.word e = .cow k')
    (q := fun e => (s.set d w k o).word e = .cow k') hd fun e _ hne => by rw [word_set_of_ne hne]
  rwa [word_set_self] at hchange

/-- The wrapper moves with the word. -/
theorem counted_set (h : s.Counted) (hd : d < s.numWords)
    (hother : ∀ k', k' ≠ k → s.word d ≠ .cow k' ∧ w ≠ .cow k')
    (hsome : ∀ c, o = some c → 0 < c.refcnt ∧ c.refcnt + (if s.word d = .cow k then 1 else 0) =
      Nat.count (fun e => s.word e = .cow k) s.numWords + if w = .cow k then 1 else 0)
    (hnone : o = none → w ≠ .cow k ∧ ∀ e, e ≠ d → s.word e ≠ .cow k) : (s.set d w k o).Counted := by
  have hcount := count_set (w := w) (k := k) (o := o) hd
  refine ⟨fun k' c hc => ?_, fun k' c hc => ?_, fun e k' he => ?_⟩
  · by_cases hk : k' = k
    · rw [hk, crp_set_self] at hc
      have hk' := hcount k
      have hrefcnt := (hsome c hc).2
      rw [hk]
      change c.refcnt = Nat.count _ s.numWords
      omega
    · rw [crp_set_of_ne hk] at hc
      have hk' := hcount k'
      rw [if_neg (hother k' hk).1, if_neg (hother k' hk).2] at hk'
      rw [h.refcnt k' c hc]
      exact hk'.symm
  · by_cases hk : k' = k
    · rw [hk, crp_set_self] at hc
      exact (hsome c hc).1
    · rw [crp_set_of_ne hk] at hc
      exact h.pos k' c hc
  · by_cases hk : k' = k
    · subst hk
      rw [crp_set_self]
      by_cases hed : e = d
      · rw [hed, word_set_self] at he
        refine ⟨hed ▸ hd, ?_⟩
        cases o with
        | none => exact absurd he (hnone rfl).1
        | some c => rfl
      · rw [word_set_of_ne hed] at he
        refine ⟨(h.known e k' he).1, ?_⟩
        cases o with
        | none => exact absurd he ((hnone rfl).2 e hed)
        | some c => rfl
    · rw [crp_set_of_ne hk]
      by_cases hed : e = d
      · rw [hed, word_set_self] at he
        exact absurd he (hother k' hk).2
      · rw [word_set_of_ne hed] at he
        exact h.known e k' he

/-- The other words keep their pages, if the wrapper keeps its own. -/
theorem pageAt_set_of_ne (h : e ≠ d)
    (hk : s.word e = .cow k → o.map CowRemotePage.remotePage = (s.crp k).map CowRemotePage.remotePage) :
    (s.set d w k o).pageAt e = s.pageAt e := by
  simp only [pageAt, word_set_of_ne h]
  cases he : s.word e with
  | plain rp => rfl
  | cow k' =>
      by_cases hkk : k' = k
      · subst hkk
        have hmap := hk he
        simp only [crp_set_self]
        cases o <;> cases hs : s.crp k' <;> simp_all
      · simp only [crp_set_of_ne hkk]

/-- The references of words that do not point to the wrapper. -/
theorem refsAt_set_of_ne (h : e ≠ d) (hk : s.word e ≠ .cow k) : (s.set d w k o).refsAt e = s.refsAt e := by
  simp only [refsAt, word_set_of_ne h]
  cases he : s.word e with
  | plain rp => rfl
  | cow k' =>
      have hkk : k' ≠ k := fun heq => hk (heq ▸ he)
      simp only [crp_set_of_ne hkk]

end Set

/-! ### Taking a reference -/

/-- The word of `d` has become one of the wrapper `k`. -/
theorem refer_spec (h : s.Counted) (hd : d < s.numWords) {rp : RemotePage} (hplain : s.word d = .plain rp)
    (hc : s.crp k = some c) : ∃ s', s.refer d k = some s' ∧ s'.Counted ∧ s'.numWords = s.numWords ∧
      s'.word d = .cow k ∧ s'.crp k = some { c with refcnt := c.refcnt + 1 } ∧
      ∀ e, e ≠ d → s'.word e = s.word e ∧ s'.pageAt e = s.pageAt e ∧
        (s.word e ≠ .cow k → s'.refsAt e = s.refsAt e) := by
  refine ⟨_, by rw [refer, hc]; rfl, counted_set h hd (fun k' hk => ⟨?_, ?_⟩) (fun c' hc' => ?_) (fun hn => ?_),
    rfl, word_set_self, crp_set_self, fun e he => ⟨word_set_of_ne he, ?_, refsAt_set_of_ne he⟩⟩
  · rw [hplain]
    exact fun heq => by cases heq
  · exact fun heq => hk (CowWord.cow.inj heq).symm
  · obtain rfl := Option.some.inj hc'
    rw [hplain, if_neg (fun heq => by cases heq), if_pos rfl, ← h.refcnt k c hc]
    exact ⟨Nat.succ_pos _, rfl⟩
  · cases hn
  · apply pageAt_set_of_ne he
    rw [hc]
    exact fun _ => rfl

/-- A plain word is put into a new wrapper. -/
theorem wrap_spec (h : s.Counted) (hd : d < s.numWords) {rp : RemotePage} (hplain : s.word d = .plain rp)
    (hfresh : s.crp k = none) : (s.set d (.cow k) k (some ⟨1, rp⟩)).Counted ∧
      ∀ e, e ≠ d → (s.set d (.cow k) k (some ⟨1, rp⟩)).pageAt e = s.pageAt e ∧
        (s.set d (.cow k) k (some ⟨1, rp⟩)).refsAt e = s.refsAt e := by
  have hunused : ∀ e, s.word e ≠ .cow k := by
    intro e he
    have hsome := (h.known e k he).2
    rw [hfresh] at hsome
    cases hsome
  have hzero : Nat.count (fun e => s.word e = .cow k) s.numWords = 0 := by
    rw [Nat.count_iff_forall_not]
    exact fun e _ => hunused e
  refine ⟨counted_set h hd (fun k' hk => ⟨?_, ?_⟩) (fun c hc => ?_) (fun hn => ?_), fun e he => ⟨?_, ?_⟩⟩
  · rw [hplain]
    exact fun heq => by cases heq
  · exact fun heq => hk (CowWord.cow.inj heq).symm
  · obtain rfl := Option.some.inj hc
    rw [if_neg (hunused d), hzero, if_pos rfl]
    exact ⟨Nat.one_pos, rfl⟩
  · cases hn
  · exact pageAt_set_of_ne he fun hek => absurd hek (hunused e)
  · exact refsAt_set_of_ne he (hunused e)

/-- What `get_cow_remote_page` does. -/
structure Shared (s s' : CowWords) (old new : ℕ) (alloc : Option ℕ) : Prop where
  counted : s'.Counted
  numWords : s'.numWords = s.numWords
  words : ∃ k, s'.word old = .cow k ∧ s'.word new = .cow k
  page : s'.pageAt old = s.pageAt old ∧ s'.pageAt new = s.pageAt old
  other : ∀ e, e ≠ old → e ≠ new → s'.word e = s.word e ∧ s'.pageAt e = s.pageAt e
  unused : ∀ k, s.crp k = none → alloc ≠ some k → s'.crp k = none
  /-- no word but these two is affected, if the page has not been shared before -/
  alone : s.refsAt old = 1 → s'.refsAt old = 2 ∧ ∀ e, e ≠ old → e ≠ new → s'.refsAt e = s.refsAt e

theorem getCowRemotePage_spec {alloc : Option ℕ} (h : s.Counted) (hold : old < s.numWords)
    (hnew : new < s.numWords) (hne : old ≠ new) (hfree : s.word new = .plain .free)
    (hfresh : ∀ k, alloc = some k → s.crp k = none) :
    (s.getCowRemotePage old new alloc = none ∧ (∃ rp, s.word old = .plain rp) ∧ alloc = none) ∨
    ∃ s', s.getCowRemotePage old new alloc = some s' ∧ s.Shared s' old new alloc ∧
      ¬ ((∃ rp, s.word old = .plain rp) ∧ alloc = none) := by
  rw [getCowRemotePage]
  cases hword : s.word old with
  | plain rp =>
      cases alloc with
      | none => exact .inl ⟨rfl, ⟨rp, rfl⟩, rfl⟩
      | some k =>
          obtain ⟨hcounted, hother⟩ := wrap_spec h hold hword (hfresh k rfl)
          have hword' : (s.set old (.cow k) k (some ⟨1, rp⟩)).word new = .plain .free := by
            rw [word_set_of_ne hne.symm, hfree]
          obtain ⟨s', hs', hcounted', hnum, hnew', hcrp, hrest⟩ :=
            refer_spec hcounted hnew hword' crp_set_self
          obtain ⟨hold', hpage, -⟩ := hrest old hne
          rw [word_set_self] at hold'
          refine .inr ⟨s', hs', ⟨hcounted', hnum, ⟨k, hold', hnew'⟩, ⟨?_, ?_⟩, fun e he he' => ?_,
            fun k' hk' hk => ?_, fun _ => ⟨?_, fun e he he' => ?_⟩⟩, fun hc => by cases hc.2⟩
          · rw [pageAt_of_crp hold' hcrp, pageAt_of_plain hword]
          · rw [pageAt_of_crp hnew' hcrp, pageAt_of_plain hword]
          · rw [(hrest e he').1, (hrest e he').2.1, word_set_of_ne he, (hother e he).1]
            exact ⟨rfl, rfl⟩
          · have hkk : k' ≠ k := fun heq => hk (congrArg some heq.symm)
            obtain rfl : (s.set old (.cow k) k (some ⟨1, rp⟩)).set new (.cow k) k (some ⟨2, rp⟩) = s' := by
              simpa [refer] using hs'
            rw [crp_set_of_ne hkk, crp_set_of_ne hkk, hk']
          · rw [refsAt_of_crp hold' hcrp]
          · have hunused : s.word e ≠ .cow k := by
              intro hek
              have hsome := (h.known e k hek).2
              rw [hfresh k rfl] at hsome
              cases hsome
            rw [(hrest e he').2.2 (by rwa [word_set_of_ne he]), (hother e he).2]
  | cow k =>
      obtain ⟨c, hc⟩ := exists_crp h hword
      obtain ⟨s', hs', hcounted, hnum, hnew', hcrp, hrest⟩ := refer_spec h hnew hfree hc
      obtain ⟨hold', hpage, -⟩ := hrest old hne
      rw [hword] at hold'
      refine .inr ⟨s', hs', ⟨hcounted, hnum, ⟨k, hold', hnew'⟩, ⟨hpage, ?_⟩,
        fun e he he' => ⟨(hrest e he').1, (hrest e he').2.1⟩, fun k' hk' _ => ?_, fun hone => ⟨?_, ?_⟩⟩,
        fun hc => by cases hc.1.choose_spec⟩
      · rw [pageAt_of_crp hnew' hcrp, pageAt_of_crp hword hc]
      · have hkk : k' ≠ k := fun heq => by rw [heq, hc] at hk'; cases hk'
        obtain rfl : s.set new (.cow k) k (some { c with refcnt := c.refcnt + 1 }) = s' := by
          simpa [refer, hc] using hs'
        rw [crp_set_of_ne hkk, hk']
      · rw [refsAt_of_crp hword hc] at hone
        rw [refsAt_of_crp hold' hcrp, hone]
      · intro e he he'
        rw [refsAt_of_crp hword hc] at hone
        exact (hrest e he').2.2 fun hek => he (eq_of_refcnt_one h hc hone hek hword)

/-! ### Giving one back -/

/-- `__put_cow_remote_page` of a word that points to a wrapper. -/
structure Put (s s' : CowWords) (d k : ℕ) : Prop where
  counted : s'.Counted
  numWords : s'.numWords = s.numWords
  plain : ∃ rp, s'.word d = .plain rp
  other : ∀ e, e ≠ d → s'.word e = s.word e ∧ s'.pageAt e = s.pageAt e ∧
    (s.word e ≠ .cow k → s'.refsAt e = s.refsAt e)
  /-- the last word gets the page back, and one that is not the last is free -/
  last : s.refsAt d = 1 → s'.pageAt d = s.pageAt d
  more : s.refsAt d ≠ 1 → s'.word d = .plain .free ∧
    ∀ e, e ≠ d → s.word e = .cow k → s'.refsAt e = s.refsAt d - 1

theorem put_putCowRemotePage (h : s.Counted) (hd : s.word d = .cow k) :
    s.Put (s.putCowRemotePage d) d k := by
  have hlt := (h.known d k hd).1
  obtain ⟨c, hc⟩ := exists_crp h hd
  have hpos := h.pos k c hc
  have hrefs := refsAt_of_crp hd hc
  have hplain : ∀ rp k', CowWord.plain rp ≠ .cow k' := fun _ _ heq => by cases heq
  have hother : ∀ k', k' ≠ k → ∀ rp, s.word d ≠ .cow k' ∧ CowWord.plain rp ≠ .cow k' := by
    intro k' hk rp
    rw [hd]
    exact ⟨fun heq => hk (CowWord.cow.inj heq).symm, hplain rp k'⟩
  have hput : s.putCowRemotePage d = if c.refcnt = 1 then s.set d (.plain c.remotePage) k none
      else s.set d (.plain .free) k (some { c with refcnt := c.refcnt - 1 }) := by
    simp only [putCowRemotePage, hd, hc]
  rw [hput]
  by_cases hone : c.refcnt = 1
  · rw [if_pos hone]
    have honly : ∀ e, e ≠ d → s.word e ≠ .cow k :=
      fun e he hek => he (eq_of_refcnt_one h hc hone hek hd)
    refine ⟨counted_set h hlt (fun k' hk => hother k' hk _) (fun c' hc' => by cases hc')
      (fun _ => ⟨hplain _ _, honly⟩), rfl, ⟨_, word_set_self⟩, fun e he => ⟨word_set_of_ne he, ?_,
        refsAt_set_of_ne he⟩, fun _ => ?_, fun hmore => absurd (hrefs.trans hone) hmore⟩
    · exact pageAt_set_of_ne he fun hek => absurd hek (honly e he)
    · rw [pageAt_of_plain word_set_self, pageAt_of_crp hd hc]
  · rw [if_neg hone]
    refine ⟨counted_set h hlt (fun k' hk => hother k' hk _) (fun c' hc' => ?_) (fun hn => by cases hn), rfl,
      ⟨_, word_set_self⟩, fun e he => ⟨word_set_of_ne he, ?_, refsAt_set_of_ne he⟩,
      fun hlast => absurd (hrefs.symm.trans hlast) hone, fun _ => ⟨word_set_self, fun e he hek => ?_⟩⟩
    · obtain rfl := Option.some.inj hc'
      rw [if_pos hd, if_neg (hplain _ _), ← h.refcnt k c hc]
      simp only
      omega
    · apply pageAt_set_of_ne he
      rw [hc]
      exact fun _ => rfl
    · rw [refsAt_of_crp ((word_set_of_ne he).trans hek) crp_set_self, hrefs]

/-- The two words of a subblock give their references back. -/
structure Undone (s s' : CowWords) (old new : ℕ) : Prop where
  counted : s'.Counted
  numWords : s'.numWords = s.numWords
  plain : ∃ rp, s'.word old = .plain rp
  free : s'.word new = .plain .free
  other : ∀ e, e ≠ old → e ≠ new → s'.word e = s.word e ∧ s'.pageAt e = s.pageAt e
  /-- a page that only these two share goes back to the old word -/
  alone : s.refsAt old = 2 → s'.pageAt old = s.pageAt old ∧
    ∀ e, e ≠ old → e ≠ new → s'.refsAt e = s.refsAt e

theorem undone_put (h : s.Counted) (hold : s.word old = .cow k) (hnew : s.word new = .cow k)
    (hne : old ≠ new) : s.Undone ((s.putCowRemotePage new).putCowRemotePage old) old new := by
  obtain ⟨c, hc⟩ := exists_crp h hold
  have htwo := two_le_refcnt h hold hnew hne hc
  have hfirst : s.Put (s.putCowRemotePage new) new k := put_putCowRemotePage h hnew
  have hmore := hfirst.more (by rw [refsAt_of_crp hnew hc]; omega)
  have hold' : (s.putCowRemotePage new).word old = .cow k := (hfirst.other old hne).1.trans hold
  have hsecond := put_putCowRemotePage hfirst.counted hold'
  refine ⟨hsecond.counted, hsecond.numWords.trans hfirst.numWords, hsecond.plain, ?_, fun e he he' => ?_,
    fun hrefs => ⟨?_, fun e he he' => ?_⟩⟩
  · rw [(hsecond.other new hne.symm).1, hmore.1]
  · rw [(hsecond.other e he).1, (hsecond.other e he).2.1, (hfirst.other e he').1, (hfirst.other e he').2.1]
    exact ⟨rfl, rfl⟩
  · have hlast : (s.putCowRemotePage new).refsAt old = 1 := by
      rw [hmore.2 old hne hold, refsAt_of_crp hnew hc, ← refsAt_of_crp hold hc, hrefs]
    rw [hsecond.last hlast, (hfirst.other old hne).2.1]
  · -- a third word would count too
    have hek : s.word e ≠ .cow k := by
      intro hek
      have hcount := h.refcnt k c hc
      have hout := Census.count_remove (q := fun i => s.word i = .cow k ∧ i ≠ new) (h.known new k hnew).1 hnew
        fun i _ => Iff.rfl
      have hout' := Census.count_remove (q := fun i => (s.word i = .cow k ∧ i ≠ new) ∧ i ≠ old)
        (p := fun i => s.word i = .cow k ∧ i ≠ new) (h.known old k hold).1 ⟨hold, hne⟩ fun i _ => Iff.rfl
      have hpos : 0 < Nat.count (fun i => (s.word i = .cow k ∧ i ≠ new) ∧ i ≠ old) s.numWords :=
        Census.count_pos (h.known e k hek).1 ⟨⟨hek, he'⟩, he⟩
      rw [refsAt_of_crp hold hc] at hrefs
      omega
    rw [(hsecond.other e he).2.2 (by rwa [(hfirst.other e he').1]), (hfirst.other e he').2.2 hek]

/-! ### The blocks -/

variable {alloc : ℕ → Option ℕ} {s₀ : CowWords} {i j : ℕ}

/-- A word of the first `i` subblocks of the blocks. -/
def Within (old new i d : ℕ) : Prop := ∃ m < i, d = old + m ∨ d = new + m

/-- The first `i` subblocks share their wrappers. -/
structure Got (s₀ s : CowWords) (old new : ℕ) (alloc : ℕ → Option ℕ) (i : ℕ) : Prop where
  counted : s.Counted
  numWords : s.numWords = s₀.numWords
  words : ∀ m < i, ∃ k, s.word (old + m) = .cow k ∧ s.word (new + m) = .cow k
  page : ∀ m < i, s.pageAt (old + m) = s₀.pageAt (old + m) ∧ s.pageAt (new + m) = s₀.pageAt (old + m)
  other : ∀ d, ¬ Within old new i d → s.word d = s₀.word d ∧ s.pageAt d = s₀.pageAt d
  unused : ∀ k, s₀.crp k = none → (∀ m < i, alloc m ≠ some k) → s.crp k = none
  alone : (∀ m < i, s₀.refsAt (old + m) = 1) → (∀ m < i, s.refsAt (old + m) = 2) ∧
    ∀ d, ¬ Within old new i d → s.refsAt d = s₀.refsAt d

theorem Within.mono (h : Within old new i d) (hij : i ≤ j) : Within old new j d :=
  h.imp fun _ hm => ⟨hm.1.trans_le hij, hm.2⟩

theorem not_within_succ (h : ¬ Within old new (i + 1) d) : ¬ Within old new i d ∧ d ≠ old + i ∧ d ≠ new + i :=
  ⟨fun hw => h (hw.mono (Nat.le_succ i)), fun heq => h ⟨i, Nat.lt_succ_self i, .inl heq⟩,
    fun heq => h ⟨i, Nat.lt_succ_self i, .inr heq⟩⟩

/-- The next subblock's words have not been touched. -/
theorem Blocks.not_within (hb : s₀.Blocks old new n) (hi : i < n) (hji : j ≤ i) :
    ¬ Within old new j (old + i) ∧ ¬ Within old new j (new + i) := by
  have hapart := hb.apart
  constructor
  · rintro ⟨m, hm, h | h⟩ <;> omega
  · rintro ⟨m, hm, h | h⟩ <;> omega

theorem got_zero (h : s₀.Counted) : s₀.Got s₀ old new alloc 0 :=
  ⟨h, rfl, nofun, nofun, fun _ _ => ⟨rfl, rfl⟩, fun _ hk _ => hk, fun _ => ⟨nofun, fun _ _ => rfl⟩⟩

/-- One more subblock. -/
theorem Got.next (hg : s₀.Got s old new alloc i) (hb : s₀.Blocks old new n) (hi : i < n)
    (hs : s.Shared s' (old + i) (new + i) (alloc i)) : s₀.Got s' old new alloc (i + 1) := by
  have hapart := hb.apart
  have hne : ∀ m < i, old + m ≠ old + i ∧ old + m ≠ new + i ∧ new + m ≠ old + i ∧ new + m ≠ new + i :=
    fun m hm => ⟨by omega, by omega, by omega, by omega⟩
  obtain ⟨hold, hnew⟩ := hb.not_within hi le_rfl
  refine ⟨hs.counted, hs.numWords.trans hg.numWords, fun m hm => ?_, fun m hm => ?_, fun d hd => ?_,
    fun k hk halloc => ?_, fun halone => ?_⟩
  · by_cases hmi : m = i
    · exact hmi ▸ hs.words
    · obtain ⟨h₁, h₂, h₃, h₄⟩ := hne m (by omega)
      rw [(hs.other _ h₁ h₂).1, (hs.other _ h₃ h₄).1]
      exact hg.words m (by omega)
  · by_cases hmi : m = i
    · rw [hmi, hs.page.1, hs.page.2, (hg.other _ hold).2]
      exact ⟨rfl, rfl⟩
    · obtain ⟨h₁, h₂, h₃, h₄⟩ := hne m (by omega)
      rw [(hs.other _ h₁ h₂).2, (hs.other _ h₃ h₄).2]
      exact hg.page m (by omega)
  · obtain ⟨hd', h₁, h₂⟩ := not_within_succ hd
    rw [(hs.other d h₁ h₂).1, (hs.other d h₁ h₂).2]
    exact hg.other d hd'
  · exact hs.unused k (hg.unused k hk fun m hm => halloc m (by omega)) (halloc i (Nat.lt_succ_self i))
  · obtain ⟨htwo, hother⟩ := hg.alone fun m hm => halone m (by omega)
    obtain ⟨htwo', hother'⟩ := hs.alone ((hother _ hold).trans (halone i (Nat.lt_succ_self i)))
    refine ⟨fun m hm => ?_, fun d hd => ?_⟩
    · by_cases hmi : m = i
      · exact hmi ▸ htwo'
      · obtain ⟨h₁, h₂, -, -⟩ := hne m (by omega)
        rw [hother' _ h₁ h₂, htwo m (by omega)]
    · obtain ⟨hd', h₁, h₂⟩ := not_within_succ hd
      rw [hother' d h₁ h₂, hother d hd']

/-- The loop shares the subblocks until the first one for which the allocation fails. -/
theorem getCowRemotePageBlock_spec (h : s₀.Counted) (hb : s₀.Blocks old new n) (hf : s₀.Fresh alloc n)
    (hi : i ≤ n) :
    (∃ s, s₀.getCowRemotePageBlock old new alloc i = (true, s) ∧ s₀.Got s old new alloc i ∧
      ∀ m < i, ¬ s₀.FailsAt old alloc m) ∨
    ∃ j < i, ∃ s, s₀.getCowRemotePageBlock old new alloc i =
        (false, s.errorGetCowRemotePageBlock old new j) ∧ s₀.Got s old new alloc j ∧
      s₀.FailsAt old alloc j ∧ ∀ m < j, ¬ s₀.FailsAt old alloc m := by
  induction i with
  | zero => exact .inl ⟨s₀, rfl, got_zero h, nofun⟩
  | succ i ih =>
      rcases ih (by omega) with ⟨s, hs, hg, hno⟩ | ⟨j, hj, s, hs, hg, hfail⟩
      · have hin : i < n := hi
        obtain ⟨hold, hnew⟩ := hb.not_within hin le_rfl
        have hold_le := hb.old_le
        have hnew_le := hb.new_le
        have hword : s.word (old + i) = s₀.word (old + i) := (hg.other _ hold).1
        have hfresh : ∀ k, alloc i = some k → s.crp k = none := by
          intro k hk
          refine hg.unused k (hf.unused i hin k hk) fun m hm hmk => ?_
          have hmi := hf.distinct m (by omega) i hin k hmk hk
          omega
        have hfree : s.word (new + i) = .plain .free := (hg.other _ hnew).1.trans (hb.free i hin)
        have hapart := hb.apart
        have hlt : old + i < s.numWords ∧ new + i < s.numWords := by
          rw [hg.numWords]
          omega
        have hne : old + i ≠ new + i := by omega
        have hspec := getCowRemotePage_spec hg.counted hlt.1 hlt.2 hne hfree hfresh
        rw [hword] at hspec
        rcases hspec with ⟨hnone, hfails⟩ | ⟨s', hs', hshared, hno'⟩
        · refine .inr ⟨i, Nat.lt_succ_self i, s, ?_, hg, hfails, hno⟩
          simp only [getCowRemotePageBlock, hs, hnone]
        · refine .inl ⟨s', ?_, hg.next hb hin hshared, fun m hm => ?_⟩
          · simp only [getCowRemotePageBlock, hs, hs']
          · by_cases hmi : m = i
            · exact hmi ▸ hno'
            · exact hno m (by omega)
      · refine .inr ⟨j, by omega, s, ?_, hg, hfail⟩
        simp only [getCowRemotePageBlock, hs]

/-- The first `i` of `j` subblocks have given their references back. -/
structure UndoneTo (s₀ s s' : CowWords) (old new i j : ℕ) : Prop where
  counted : s'.Counted
  plain : ∀ m < i, (∃ rp, s'.word (old + m) = .plain rp) ∧ s'.word (new + m) = .plain .free
  other : ∀ d, ¬ Within old new i d → s'.word d = s.word d ∧ s'.pageAt d = s.pageAt d
  alone : (∀ m < j, s₀.refsAt (old + m) = 1) → (∀ m < i, s'.pageAt (old + m) = s₀.pageAt (old + m)) ∧
    (∀ m, i ≤ m → m < j → s'.refsAt (old + m) = 2) ∧
    ∀ d, ¬ Within old new j d → s'.refsAt d = s₀.refsAt d

/-- The undo of `j` subblocks. -/
theorem undone_errorGetCowRemotePageBlock (hb : s₀.Blocks old new n) (hj : j ≤ n)
    (hg : s₀.Got s old new alloc j) (hi : i ≤ j) :
    s₀.UndoneTo s (s.errorGetCowRemotePageBlock old new i) old new i j := by
  have hapart := hb.apart
  induction i with
  | zero =>
      exact ⟨hg.counted, nofun, fun _ _ => ⟨rfl, rfl⟩, fun halone => ⟨nofun,
        fun m _ hm => (hg.alone halone).1 m hm, (hg.alone halone).2⟩⟩
  | succ i ih =>
      have hu := ih (by omega)
      obtain ⟨hold, hnew⟩ := hb.not_within (i := i) (by omega) le_rfl
      obtain ⟨k, hk, hk'⟩ := hg.words i hi
      have hone : Undone _ (s.errorGetCowRemotePageBlock old new (i + 1)) (old + i) (new + i) :=
        undone_put hu.counted ((hu.other _ hold).1.trans hk) ((hu.other _ hnew).1.trans hk') (by omega)
      have hne : ∀ m, m ≠ i → m < n → old + m ≠ old + i ∧ old + m ≠ new + i ∧ new + m ≠ old + i ∧
          new + m ≠ new + i := fun m _ _ => ⟨by omega, by omega, by omega, by omega⟩
      refine ⟨hone.counted, fun m hm => ?_, fun d hd => ?_, fun halone => ?_⟩
      · by_cases hmi : m = i
        · rw [hmi]
          exact ⟨hone.plain, hone.free⟩
        · obtain ⟨h₁, h₂, h₃, h₄⟩ := hne m hmi (by omega)
          rw [(hone.other _ h₁ h₂).1, (hone.other _ h₃ h₄).1]
          exact hu.plain m (by omega)
      · obtain ⟨hd', h₁, h₂⟩ := not_within_succ hd
        rw [(hone.other d h₁ h₂).1, (hone.other d h₁ h₂).2]
        exact hu.other d hd'
      · obtain ⟨hpage, htwo, hother⟩ := hu.alone halone
        obtain ⟨hback, hrefs⟩ := hone.alone (htwo i le_rfl hi)
        refine ⟨fun m hm => ?_, fun m hm hmj => ?_, fun d hd => ?_⟩
        · by_cases hmi : m = i
          · rw [hmi, hback, (hu.other _ hold).2]
            exact (hg.page i hi).1
          · obtain ⟨h₁, h₂, -, -⟩ := hne m hmi (by omega)
            rw [(hone.other _ h₁ h₂).2]
            exact hpage m (by omega)
        · obtain ⟨h₁, h₂, -, -⟩ := hne m (by omega) (by omega)
          rw [hrefs _ h₁ h₂]
          exact htwo m (by omega) hmj
        · rw [hrefs d (fun heq => hd ⟨i, hi, .inl heq⟩) fun heq => hd ⟨i, hi, .inr heq⟩]
          exact hother d hd

/-- **A block shares its words with its copy, or keeps them**, exactly if no allocation fails behind
a word whose page has been shared before: the undo takes such a word for one of its own. -/
theorem getCowRemotePageBlock_iff (h : s.Counted) (hb : s.Blocks old new n) (hf : s.Fresh alloc n) :
    s.BlockOk old new n (s.getCowRemotePageBlock old new alloc n) ↔ s.FailsUnshared old n alloc := by
  rcases getCowRemotePageBlock_spec h hb hf le_rfl with ⟨s', hs', hg, hno⟩ |
    ⟨j, hj, s₁, hs', hg, hfails, hfirst⟩
  · rw [hs']
    refine iff_of_true ⟨hg.counted, fun _ i hi => ?_, fun d hd => ?_, fun hc => by cases hc⟩
      fun j hj hfails => absurd hfails (hno j hj)
    · obtain ⟨k, hk, hk'⟩ := hg.words i hi
      exact ⟨k, hk, hk', hg.page i hi⟩
    · apply hg.other d
      rintro ⟨m, hm, heq | heq⟩
      · exact (hd m hm).1 heq
      · exact (hd m hm).2 heq
  · rw [hs']
    have hu := undone_errorGetCowRemotePageBlock hb hj.le hg le_rfl
    constructor
    · intro hok j' hj' hfails' hfirst' i hi
      obtain rfl : j' = j := by
        by_contra hne
        rcases Nat.lt_or_gt_of_ne hne with hlt | hlt
        · exact hfirst j' hlt hfails'
        · exact hfirst' j hlt hfails
      obtain ⟨⟨rp, hplain⟩, -⟩ := hu.plain i hi
      rw [← (hok.kept rfl (old + i)).2]
      exact refsAt_of_plain hplain
    · intro hunshared
      have halone := hunshared j hj hfails hfirst
      obtain ⟨hpage, -, hrefs⟩ := hu.alone halone
      have hkept : ∀ d, ¬ Within old new j d → (s₁.errorGetCowRemotePageBlock old new j).word d = s.word d ∧
          (s₁.errorGetCowRemotePageBlock old new j).pageAt d = s.pageAt d := by
        intro d hd
        rw [(hu.other d hd).1, (hu.other d hd).2]
        exact hg.other d hd
      refine ⟨hu.counted, nofun, fun d hd => ?_, fun _ d => ?_⟩
      · apply hkept
        rintro ⟨m, hm, heq | heq⟩
        · exact (hd m (by omega)).1 heq
        · exact (hd m (by omega)).2 heq
      · by_cases hd : Within old new j d
        · obtain ⟨m, hm, rfl | rfl⟩ := hd
          · obtain ⟨⟨rp, hplain⟩, -⟩ := hu.plain m hm
            exact ⟨hpage m hm, (refsAt_of_plain hplain).trans (halone m hm).symm⟩
          · have hfree := (hu.plain m hm).2
            have hfree₀ := hb.free m (by omega)
            rw [pageAt_of_plain hfree, pageAt_of_plain hfree₀, refsAt_of_plain hfree, refsAt_of_plain hfree₀]
            exact ⟨rfl, rfl⟩
        · exact ⟨(hkept d hd).2, hrefs d hd⟩

/-- Two subblocks that are remote, the first of them shared by an earlier copy, at 4. -/
def sharedFirst : CowWords where
  numWords := 5
  word d := if d = 0 ∨ d = 4 then .cow 0 else if d = 1 then .plain (.page 0 64) else .plain .free
  crp k := if k = 0 then some ⟨2, .page 0 32⟩ else none

theorem counted_sharedFirst : sharedFirst.Counted := by
  have hcrp : ∀ k c, sharedFirst.crp k = some c → k = 0 ∧ c = ⟨2, .page 0 32⟩ := by
    intro k c hc
    simp only [sharedFirst, Option.ite_none_right_eq_some] at hc
    exact ⟨hc.1, (Option.some.inj hc.2).symm⟩
  refine ⟨fun k c hc => ?_, fun k c hc => ?_, fun d k hd => ?_⟩
  · obtain ⟨rfl, rfl⟩ := hcrp k c hc
    decide
  · obtain ⟨rfl, rfl⟩ := hcrp k c hc
    decide
  · simp only [sharedFirst] at hd ⊢
    split_ifs at hd with hd'
    · obtain rfl := CowWord.cow.inj hd
      exact ⟨by omega, rfl⟩

theorem blocks_sharedFirst : sharedFirst.Blocks 0 2 2 :=
  ⟨by decide, by decide, .inl le_rfl, by decide⟩

/-- The wrapper of the second subblock is allocated, and both words are shared. -/
theorem blockOk_sharedFirst : sharedFirst.BlockOk 0 2 2
    (sharedFirst.getCowRemotePageBlock 0 2 (fun i => some (i + 1)) 2) := by
  refine (getCowRemotePageBlock_iff counted_sharedFirst blocks_sharedFirst ⟨fun i _ k hk => ?_, ?_⟩).mpr ?_
  · obtain rfl := Option.some.inj hk
    simp only [sharedFirst, if_neg (Nat.succ_ne_zero i)]
  · intro i _ j _ k hi hj
    exact Nat.succ.inj (Option.some.inj (hi.trans hj.symm))
  · intro j _ hfails
    cases hfails.2

/-- It is not, and the first word is lost. -/
theorem not_blockOk_sharedFirst : sharedFirst.Counted ∧ sharedFirst.Blocks 0 2 2 ∧
    (sharedFirst.getCowRemotePageBlock 0 2 (fun _ => none) 2).2.word 0 = .plain .free ∧
    sharedFirst.pageAt 0 = .page 0 32 ∧
    ¬ sharedFirst.BlockOk 0 2 2 (sharedFirst.getCowRemotePageBlock 0 2 (fun _ => none) 2) := by
  refine ⟨counted_sharedFirst, blocks_sharedFirst, by decide, by decide, fun hok => ?_⟩
  exact absurd (hok.kept (by decide) 0).1 (by decide)

end CowWords

end Emp
