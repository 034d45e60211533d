import Emp.Cow.Handoff
import Emp.Mapper.Refinement

/-!
# A handoff against a copy

Handing the pages over moves everything that it moves, and a handoff that fails undoes what it did.
What the other processes read afterwards is what the donor holds: it is what they would have read
after a copy exactly if the donor was up to date, which the flags of the head do not tell.

## Main definitions

* `CowSys.Ready` — a block that meets the test, in a state in which pages, records and lists agree.
* `CowSys.Taken` — the new block has local pages over some of the pages.
* `CowSys.HandedOver` — what a handoff is to leave.
* `CowSys.handoffOk_iff` — when a handoff is as good as a copy.
-/

namespace Emp

namespace CowSys

variable {V P D : Type*} [DecidableEq V]

/-- The old block meets the test of a handoff: its pages are its own, its local pages and records
are in order, it is on the list that its head tells of, and nobody but the faulting vmr has ptes.
The pages for a copy are free ones. -/
structure Ready (s : CowSys V P D) (c : CowTake V) : Prop where
  pos : 0 < s.numSubblock
  test : s.canHandOff c.vmr = true
  legal : ∀ i lp, (s.gpa .old i).localPage = some lp → lp.mappers.Legal
  own : ∀ i j lp lp', i < s.numSubblock → j < s.numSubblock →
    (s.gpa .old i).localPage = some lp → (s.gpa .old j).localPage = some lp' →
      lp.page = lp'.page → i = j
  backlink : ∀ i lp, i < s.numSubblock → (s.gpa .old i).localPage = some lp →
    s.backlink lp.page = some (.old, i)
  unused : ∀ i, (s.gpa .new i).localPage = none
  active : (s.gpa .old 0).rState = .active
  listed : ∀ lp, (s.gpa .old 0).localPage = some lp → ∀ l, (s.lists l).count (s.head .old) =
    if l = s.listOf ((s.gpa .old 0).flags .proactive) lp then 1 else 0
  mapped : ∀ i lp, i < s.numSubblock → (s.gpa .old i).localPage = some lp →
    ∃ w, s.pte c.vmr i = some ⟨lp.page, w⟩
  others : ∀ u i, u ≠ c.vmr → i < s.numSubblock → s.pte u i = none
  free : ∀ i j lp, i < s.numSubblock → j < s.numSubblock →
    (s.gpa .old j).localPage = some lp → c.fresh i ≠ lp.page
  distinct : ∀ i j, i < s.numSubblock → j < s.numSubblock → c.fresh i = c.fresh j → i = j

/-- What a handoff is to leave: the new block has the pages and the records, the old one is remote,
on no list, and its donor pages hold the contents; no resident count has changed. -/
structure HandedOver (s u : CowSys V P D) (c : CowTake V) : Prop where
  pages : ∀ i lp, i < s.numSubblock → (s.gpa .old i).localPage = some lp →
    ∃ lp', (u.gpa .new i).localPage = some lp' ∧ lp'.page = lp.page ∧
      lp'.mappers = lp.mappers ∧ u.backlink lp.page = some (.new, i) ∧
      (u.pte c.vmr i).map CowPte.page = some lp.page
  remote : ∀ i, i < s.numSubblock → (u.gpa .old i).localPage = none ∧
    (u.gpa .old i).rState = .init ∧ (u.gpa .old i).flags .remote = true ∧
    (u.gpa .old i).word = (s.gpa .old i).word
  unlisted : ∀ l, s.head .old ∉ u.lists l
  valid : u.isBlockRemotePageValid .old = true
  holds : ∀ i lp, i < s.numSubblock → (s.gpa .old i).localPage = some lp →
    u.refetch .old i = s.content lp.page
  rss : u.rss = s.rss

/-- A handoff that fails leaves everything as it was, and the copy follows as if it were the first;
one that succeeds leaves what it is to leave, and every process reads what it would read after a
copy. -/
def HandoffOk (s : CowSys V P D) (c : CowTake V) : Prop :=
  ((s.initNew.dupCowGpadescHandoff c).1 = false →
    (s.initNew.dupCowGpadescHandoff c).2 = s.initNew ∧
      s.dupCowGpadesc c = s.initNew.dupCowGpadescLocal c) ∧
  ((s.initNew.dupCowGpadescHandoff c).1 = true →
    s.HandedOver (s.initNew.dupCowGpadescHandoff c).2 c ∧
      ∀ u i, i < s.numSubblock → (s.initNew.dupCowGpadescHandoff c).2.read i c.vmr u =
        (s.initNew.dupCowGpadescLocal c).read i c.vmr u)

/-! ### The block that is handed over -/

omit [DecidableEq V] in
/-- One record, that of the owner. -/
theorem sole_mapper {m : MapperList V P} {v : V} (hm : m.Legal) (hone : m.numPmds = 1)
    (howner : m.empLpOwner = some v) : ∃ q, m = ⟨⟨some v, some q⟩, some [], 1⟩ := by
  obtain ⟨⟨vmr, pmd⟩, next, num⟩ := m
  cases next with
  | none =>
    have hcount := hm.count
    rw [MapperList.records_none rfl] at hcount
    exact absurd (hone.symm.trans hcount) (by simp)
  | some l =>
    have hrec := MapperList.records_some (s := ⟨⟨vmr, pmd⟩, some l, num⟩) rfl
    have hcount := hm.count
    rw [hrec, hone, List.length_cons] at hcount
    have hnil : l = [] := List.eq_nil_of_length_eq_zero (by omega)
    have hmem : (⟨vmr, pmd⟩ : MappedPmd V P) ∈ MapperList.records ⟨⟨vmr, pmd⟩, some l, num⟩ := by
      rw [hrec]
      exact List.mem_cons_self
    obtain ⟨q, hq⟩ := Option.ne_none_iff_exists'.mp (hm.distinct.named _ hmem).2
    have hv : vmr = some v := howner
    have hnum : num = 1 := hone
    have hq' : pmd = some q := hq
    exact ⟨q, by rw [hv, hq', hnil, hnum]⟩

variable {s t u : CowSys V P D} {c : CowTake V} {i j k m : ℕ}

theorem Ready.sole (hr : s.Ready c) (hi : i < s.numSubblock) :
    ∃ lp q, (s.gpa .old i).localPage = some lp ∧
      lp.mappers = ⟨⟨some c.vmr, some q⟩, some [], 1⟩ := by
  have htest := hr.test
  rw [canHandOff, Bool.and_eq_true, blockMappedByOnly, List.all_eq_true] at htest
  have hone := htest.2 i (List.mem_range.mpr hi)
  cases hlp : (s.gpa .old i).localPage with
  | none => simp [hlp] at hone
  | some lp =>
    simp only [hlp, Bool.not_eq_true', Bool.or_eq_false_iff, decide_eq_false_iff_not,
      not_not, ne_eq] at hone
    obtain ⟨q, hq⟩ := sole_mapper (hr.legal i lp hlp) hone.1 hone.2
    exact ⟨lp, q, rfl, hq⟩

/-! ### The local pages of the new block -/

/-- The new block has local pages over the pages of the subblocks from `i` up to `k`. -/
structure Taken (s t : CowSys V P D) (c : CowTake V) (i k : ℕ) : Prop where
  rest : { t with gpa := s.gpa, backlink := s.backlink } = s
  old : t.gpa .old = s.gpa .old
  new : ∀ j, t.gpa .new j = if i ≤ j ∧ j < k then
    { s.gpa .new j with localPage := (s.gpa .old j).localPage.map fun lp =>
      ⟨lp.page, MapperList.init (some c.vmr), 0, -32768, none⟩ } else s.gpa .new j
  backlink : ∀ j lp, j < s.numSubblock → (s.gpa .old j).localPage = some lp →
    t.backlink lp.page = some (if i ≤ j ∧ j < k then (.new, j) else (.old, j))
  other : ∀ p, (∀ j lp, j < s.numSubblock → (s.gpa .old j).localPage = some lp → lp.page ≠ p) →
    t.backlink p = s.backlink p

omit [DecidableEq V] in
theorem Taken.numSubblock (h : s.Taken t c i k) : t.numSubblock = s.numSubblock := by
  have hrest := congrArg CowSys.numSubblock h.rest
  exact hrest

/-- Nothing is taken. -/
theorem taken_none (hr : s.Ready c) (h : k ≤ i) : s.Taken s c i k := by
  have hout : ∀ j, ¬ (i ≤ j ∧ j < k) := fun j => by omega
  refine ⟨rfl, rfl, fun j => ?_, fun j lp hj hlp => ?_, fun _ _ => rfl⟩
  · rw [if_neg (hout j)]
  · rw [if_neg (hout j)]
    exact hr.backlink j lp hj hlp

theorem Taken.eq (h : s.Taken t c i k) (hr : s.Ready c) (hk : k ≤ i) : t = s := by
  have hout : ∀ j, ¬ (i ≤ j ∧ j < k) := fun j => by omega
  have hgpa : t.gpa = s.gpa := by
    funext b j
    cases b with
    | old => rw [h.old]
    | new => rw [h.new, if_neg (hout j)]
  have hback : t.backlink = s.backlink := by
    funext p
    by_cases hp : ∃ j lp, j < s.numSubblock ∧ (s.gpa .old j).localPage = some lp ∧ lp.page = p
    · obtain ⟨j, lp, hj, hlp, rfl⟩ := hp
      rw [h.backlink j lp hj hlp, if_neg (hout j), hr.backlink j lp hj hlp]
    · refine h.other p fun j lp hj hlp hpage => hp ⟨j, lp, hj, hlp, hpage⟩
  rw [← h.rest, ← hgpa, ← hback]

/-- One more local page. -/
theorem Taken.next (h : s.Taken t c i k) (hr : s.Ready c) (hik : i ≤ k) (hk : k < s.numSubblock)
    {lp : CowPage V P} (hlp : (s.gpa .old k).localPage = some lp) :
    s.Taken (t.allocLocalPage k c.vmr lp.page) c i (k + 1) := by
  refine ⟨h.rest, ?_, fun j => ?_, fun j lp' hj hlp' => ?_, fun p hp => ?_⟩
  · simp only [allocLocalPage, setGpa]
    rw [Function.update_of_ne (by decide), h.old]
  · simp only [allocLocalPage, setGpa, Function.update_self]
    by_cases hjk : j = k
    · rw [hjk, Function.update_self, if_pos ⟨hik, by omega⟩, hlp, h.new, if_neg (by omega)]
      rfl
    · rw [Function.update_of_ne hjk, h.new]
      exact if_congr (by omega) rfl rfl
  · simp only [allocLocalPage]
    by_cases hjk : j = k
    · rw [hjk, hlp] at hlp'
      rw [← Option.some.inj hlp', Function.update_self, hjk, if_pos ⟨hik, by omega⟩]
    · have hne : lp'.page ≠ lp.page := fun hpage => hjk (hr.own j k lp' lp hj hk hlp' hlp hpage)
      rw [Function.update_of_ne hne, h.backlink j lp' hj hlp']
      exact congrArg some (if_congr (by omega) rfl rfl)
  · simp only [allocLocalPage]
    rw [Function.update_of_ne (Ne.symm (hp k lp hk hlp)), h.other p hp]

/-- The loop takes all pages, or those in front of the first that fails. -/
theorem Taken.handoffLoop (h : s.Taken t c 0 k) (hr : s.Ready c) (hm : k + m = s.numSubblock) :
    ((∀ j, k ≤ j → j < s.numSubblock → c.alloc j = true) →
      (t.handoffLoop c k m).1 = true ∧ s.Taken (t.handoffLoop c k m).2 c 0 s.numSubblock) ∧
    ((∃ j, k ≤ j ∧ j < s.numSubblock ∧ c.alloc j = false) → (t.handoffLoop c k m).1 = false ∧
      ∃ l, l ≤ s.numSubblock ∧ s.Taken (t.handoffLoop c k m).2 c 0 l) := by
  induction m generalizing t k with
  | zero =>
    refine ⟨fun _ => ⟨rfl, ?_⟩, fun hnone => ?_⟩
    · rw [← hm]
      exact h
    · obtain ⟨j, hkj, hj, -⟩ := hnone
      omega
  | succ m ih =>
    obtain ⟨lp, q, hlp, -⟩ := hr.sole (i := k) (by omega)
    have hold : (t.gpa .old k).localPage = some lp := by rw [h.old, hlp]
    simp only [CowSys.handoffLoop, hold]
    by_cases halloc : c.alloc k = true
    · rw [if_pos halloc]
      obtain ⟨hall, hsome⟩ := ih (h.next hr (Nat.zero_le k) (by omega) hlp) (by omega)
      refine ⟨fun hok => hall fun j hkj hj => hok j (by omega) hj, fun hnone => ?_⟩
      obtain ⟨j, hkj, hj, hfail⟩ := hnone
      have hne : j ≠ k := by
        rintro rfl
        rw [halloc] at hfail
        exact absurd hfail (by simp)
      exact hsome ⟨j, by omega, hj, hfail⟩
    · rw [if_neg halloc]
      refine ⟨fun hok => absurd (hok k le_rfl (by omega)) halloc, fun _ => ⟨rfl, k, by omega, h⟩⟩

/-- The error path gives every page its backlink back. -/
theorem Taken.undoLoop (h : s.Taken t c i k) (hr : s.Ready c) (hk : k ≤ s.numSubblock)
    (hm : k ≤ i + m) : t.undoLoop i m = s := by
  induction m generalizing t i with
  | zero => exact h.eq hr hm
  | succ m ih =>
    by_cases hik : i < k
    · obtain ⟨lp, q, hlp, -⟩ := hr.sole (i := i) (by omega)
      have hold : (t.gpa .old i).localPage = some lp := by rw [h.old, hlp]
      have hnew : (t.gpa .new i).localPage =
          some ⟨lp.page, MapperList.init (some c.vmr), 0, -32768, none⟩ := by
        rw [h.new, if_pos ⟨le_rfl, hik⟩, hlp]
        rfl
      simp only [CowSys.undoLoop, hold, hnew]
      refine ih ⟨h.rest, ?_, fun j => ?_, fun j lp' hj hlp' => ?_, fun p hp => ?_⟩ (by omega)
      · simp only [setGpa]
        rw [Function.update_of_ne (by decide), h.old]
      · simp only [setGpa, Function.update_self]
        by_cases hji : j = i
        · rw [hji, Function.update_self, if_neg (by omega), h.new, if_pos ⟨le_rfl, hik⟩]
          have hnone := hr.unused i
          rw [← hnone]
        · rw [Function.update_of_ne hji, h.new]
          exact if_congr (by omega) rfl rfl
      · dsimp only
        by_cases hji : j = i
        · rw [hji, hlp] at hlp'
          rw [← Option.some.inj hlp', Function.update_self, hji, if_neg (by omega)]
        · have hne : lp'.page ≠ lp.page := fun hpage =>
            hji (hr.own j i lp' lp hj (by omega) hlp' hlp hpage)
          rw [Function.update_of_ne hne, h.backlink j lp' hj hlp']
          exact congrArg some (if_congr (by omega) rfl rfl)
      · dsimp only
        rw [Function.update_of_ne (Ne.symm (hp i lp (by omega) hlp)), h.other p hp]
    · have hnew : (t.gpa .new i).localPage = none := by
        rw [h.new, if_neg (by omega)]
        exact hr.unused i
      simp only [CowSys.undoLoop, hnew]
      exact h.eq hr (by omega)

/-! ### The records -/

/-- The records of the subblocks below `k` have moved, and the old block has no local pages there
any more. -/
structure Moved (s u : CowSys V P D) (c : CowTake V) (k : ℕ) : Prop where
  rest : { u with
    gpa := s.gpa, backlink := s.backlink, lists := s.lists
    pageLen := s.pageLen, curPinPages := s.curPinPages } = s
  touched : ∀ j, (u.gpa .old j).flags .touched = (s.gpa .old j).flags .touched
  word : ∀ j, (u.gpa .old j).word = (s.gpa .old j).word
  rState : ∀ j, (u.gpa .old j).rState = (s.gpa .old j).rState
  old : ∀ j, (u.gpa .old j).localPage.map CowPage.mappers =
    if j < k then none else (s.gpa .old j).localPage.map CowPage.mappers
  new : ∀ j lp, j < s.numSubblock → (s.gpa .old j).localPage = some lp →
    (u.gpa .new j).localPage = some ⟨lp.page,
      if j < k then lp.mappers else MapperList.init (some c.vmr), 0, -32768, none⟩
  backlink : ∀ j lp, j < s.numSubblock → (s.gpa .old j).localPage = some lp →
    u.backlink lp.page = some (.new, j)
  unlisted : ∀ l, s.head .old ∉ u.lists l

/-- Only the head is listed, and it comes off its list. -/
theorem Taken.removed (h : s.Taken t c 0 s.numSubblock) (hr : s.Ready c) :
    s.Moved t.removeGpaFromLru c 0 := by
  obtain ⟨gpa, backlink, rfl⟩ : ∃ g b, t = { s with gpa := g, backlink := b } := by
    refine ⟨t.gpa, t.backlink, ?_⟩
    conv_rhs => rw [← h.rest]
  have hold : gpa .old = s.gpa .old := h.old
  obtain ⟨lp, q, hlp, -⟩ := hr.sole hr.pos
  have hactive := hr.active
  have htouched : GpaFlag.touched ≠ .proactive := by decide
  have hlisted := hr.listed lp hlp
  simp only [removeGpaFromLru, hold, hlp, if_pos hactive, setGpa]
  refine ⟨rfl, fun j => ?_, fun j => ?_, fun j => ?_, fun j => ?_, fun j lp' hj hlp' => ?_,
    fun j lp' hj hlp' => ?_, fun l => ?_⟩
  all_goals dsimp only
  · by_cases hj : j = 0
    · rw [hj, Function.update_self, Function.update_self]
      exact Function.update_of_ne htouched false _
    · rw [Function.update_self, Function.update_of_ne hj]
  · by_cases hj : j = 0
    · rw [hj, Function.update_self, Function.update_self]
    · rw [Function.update_self, Function.update_of_ne hj]
  · by_cases hj : j = 0
    · rw [hj, Function.update_self, Function.update_self]
    · rw [Function.update_self, Function.update_of_ne hj]
  · rw [if_neg (Nat.not_lt_zero j)]
    by_cases hj : j = 0
    · rw [hj, Function.update_self, Function.update_self, hlp]
      rfl
    · rw [Function.update_self, Function.update_of_ne hj]
  · have hnew := h.new j
    rw [if_pos ⟨Nat.zero_le j, hj⟩] at hnew
    rw [Function.update_of_ne (by decide), if_neg (Nat.not_lt_zero j)]
    dsimp only at hnew
    rw [hnew, hlp']
    rfl
  · have hback := h.backlink j lp' hj hlp'
    rw [if_pos ⟨Nat.zero_le j, hj⟩] at hback
    exact hback
  · intro hmem
    have hcount := hlisted l
    by_cases hl : l = s.listOf ((s.gpa .old 0).flags .proactive) lp
    · have hl' : l = CowSys.listOf { s with gpa := gpa, backlink := backlink }
        ((s.gpa .old 0).flags .proactive) lp := hl
      rw [if_pos hl] at hcount
      rw [← hl', Function.update_self, ← List.count_pos_iff, List.count_erase_self, hcount] at hmem
      exact absurd hmem (by decide)
    · have hl' : l ≠ CowSys.listOf { s with gpa := gpa, backlink := backlink }
        ((s.gpa .old 0).flags .proactive) lp := hl
      rw [if_neg hl] at hcount
      rw [Function.update_of_ne hl', ← List.count_pos_iff, hcount] at hmem
      exact absurd hmem (by decide)

/-- One more record. -/
theorem Moved.moveRecord (h : s.Moved u c k) (hr : s.Ready c) (hk : k < s.numSubblock) :
    s.Moved (u.moveRecord k c.vmr) c (k + 1) := by
  obtain ⟨lp, q, hlp, hsole⟩ := hr.sole hk
  obtain ⟨lp', hlp', hmappers⟩ : ∃ lp', (u.gpa .old k).localPage = some lp' ∧
      lp'.mappers = lp.mappers := by
    have hold := h.old k
    rw [if_neg (lt_irrefl k), hlp] at hold
    exact Option.map_eq_some_iff.mp hold
  have hnew := h.new k lp hk hlp
  rw [if_neg (lt_irrefl k)] at hnew
  have hpop : (lp.mappers.empLpPopPmd c.vmr).1 = some q := by
    rw [hsole]
    simp [MapperList.empLpPopPmd, MappedPmd.isOf]
  have hins : ((MapperList.init (P := P) (some c.vmr)).empLpInsertPmd c.vmr q true).2 =
      lp.mappers := by
    rw [hsole]
    rfl
  have hside : CowSide.old ≠ .new := by decide
  simp only [CowSys.moveRecord, hlp', hnew, hmappers, hpop, hins]
  refine ⟨h.rest, fun j => ?_, fun j => ?_, fun j => ?_, fun j => ?_, fun j l hj hl => ?_,
    h.backlink, h.unlisted⟩
  all_goals simp only [setGpa, Function.update_self]
  · rw [Function.update_of_ne hside]
    by_cases hjk : j = k
    · rw [hjk, Function.update_self, h.touched]
    · rw [Function.update_of_ne hjk, h.touched]
  · rw [Function.update_of_ne hside]
    by_cases hjk : j = k
    · rw [hjk, Function.update_self, h.word]
    · rw [Function.update_of_ne hjk, h.word]
  · rw [Function.update_of_ne hside]
    by_cases hjk : j = k
    · rw [hjk, Function.update_self, h.rState]
    · rw [Function.update_of_ne hjk, h.rState]
  · rw [Function.update_of_ne hside]
    by_cases hjk : j = k
    · rw [hjk, Function.update_self, if_pos (Nat.lt_succ_self k)]
      rfl
    · rw [Function.update_of_ne hjk, h.old]
      exact if_congr (by omega) rfl rfl
  · rw [Function.update_of_ne hside.symm, Function.update_self]
    by_cases hjk : j = k
    · rw [hjk, hlp] at hl
      rw [hjk, Function.update_self, if_pos (Nat.lt_succ_self k), Option.some.inj hl]
    · rw [Function.update_of_ne hjk, h.new j l hj hl]
      have hlt : (j < k + 1) = (j < k) := propext (by omega)
      simp only [hlt]

/-- All records. -/
theorem Moved.foldl (h : s.Moved u c 0) (hr : s.Ready c) (hk : k ≤ s.numSubblock) :
    s.Moved ((List.range k).foldl (fun u i => u.moveRecord i c.vmr) u) c k := by
  induction k with
  | zero => exact h
  | succ k ih =>
    rw [List.range_succ, List.foldl_append]
    exact (ih (by omega)).moveRecord hr (by omega)

/-! ### After a handoff -/

/-- The write is granted on the pages that the ptes had. -/
theorem map_page_cowMkwritePte (b : CowSide) (v w : V) :
    ((s.cowMkwritePte b v).pte w i).map CowPte.page = (s.pte w i).map CowPte.page := by
  simp only [cowMkwritePte]
  by_cases hw : w = v
  · rw [hw, Function.update_self]
    split_ifs
    · rw [Option.map_map]
      rfl
    · rfl
  · rw [Function.update_of_ne hw]

omit [DecidableEq V] in
/-- The donor of a block that is remote. -/
theorem refetch_setBlockRemote (h0 : 0 < s.numSubblock) (hi : i < s.numSubblock) :
    s.setBlockRemote.refetch .old i = s.refetch .old i := by
  simp [refetch, setBlockRemote, h0, hi, GpaFlag.keep]

omit [DecidableEq V] in
/-- The donor pages of a block stay valid when the block becomes remote. -/
theorem isBlockRemotePageValid_setBlockRemote (h0 : 0 < s.numSubblock)
    (h : s.isBlockRemotePageValid .old = true) :
    s.setBlockRemote.isBlockRemotePageValid .old = true := by
  have hflag : (s.setBlockRemote.gpa .old 0).flags .touched = (s.gpa .old 0).flags .touched := by
    simp [setBlockRemote, h0, GpaFlag.keep]
  have hstate : (s.setBlockRemote.gpa .old 0).rState ≠ .wb := by
    simp [setBlockRemote, h0]
  rw [isBlockRemotePageValid] at h ⊢
  rw [hflag, if_neg hstate]
  by_cases htouched : (s.gpa .old 0).flags .touched = true
  · by_cases hwb : (s.gpa .old 0).rState = .wb
    · simp [htouched, hwb] at h
    · rw [htouched, if_neg (by decide), if_neg hwb, List.all_eq_true] at h
      rw [htouched, if_neg (by decide), List.all_eq_true]
      intro j hj
      have hj' : j < s.numSubblock := List.mem_range.mp hj
      have hword : (s.setBlockRemote.gpa .old j).word = (s.gpa .old j).word := by
        simp [setBlockRemote, hj']
      rw [hword]
      exact h j hj
  · simp [htouched]

omit [DecidableEq V] in
theorem localPage_setBlockRemote :
    (s.setBlockRemote.gpa .old i).localPage = (s.gpa .old i).localPage := by
  simp only [setBlockRemote, Function.update_self]
  split_ifs
  · rfl
  · rfl

omit [DecidableEq V] in
/-- What the records that move leave alone. -/
theorem Moved.fields (h : s.Moved u c k) : u.numSubblock = s.numSubblock ∧ u.pte = s.pte ∧
    u.content = s.content ∧ u.rss = s.rss := by
  have hnum := congrArg CowSys.numSubblock h.rest
  have hpte := congrArg CowSys.pte h.rest
  have hcontent := congrArg CowSys.content h.rest
  have hrss := congrArg CowSys.rss h.rest
  exact ⟨hnum, hpte, hcontent, hrss⟩

omit [DecidableEq V] in
/-- The donor pages stay valid while the records move. -/
theorem Moved.isBlockRemotePageValid (h : s.Moved u c k) :
    u.isBlockRemotePageValid .old = s.isBlockRemotePageValid .old := by
  obtain ⟨hnum, -⟩ := h.fields
  simp only [CowSys.isBlockRemotePageValid, h.touched, h.rState, h.word, hnum]

omit [DecidableEq V] in
theorem Moved.refetch (h : s.Moved u c k) : u.refetch .old i = s.refetch .old i := by
  have hdonor : u.donor = s.donor := by
    have hrest := congrArg CowSys.donor h.rest
    exact hrest
  have hcrp : u.crp = s.crp := by
    have hrest := congrArg CowSys.crp h.rest
    exact hrest
  have hzero : u.zero = s.zero := by
    have hrest := congrArg CowSys.zero h.rest
    exact hrest
  rw [CowSys.refetch, CowSys.refetch, h.touched, h.word, hdonor, hcrp, hzero]

/-- What a fault fetches for the block that is left. -/
theorem Moved.refetch_done (h : s.Moved u c k) (h0 : 0 < s.numSubblock) (hi : i < s.numSubblock)
    (v : V) : ((u.cowMkwritePte .new v).setBlockRemote).refetch .old i = s.refetch .old i := by
  obtain ⟨hnum, -⟩ := h.fields
  have hremote := refetch_setBlockRemote (s := u.cowMkwritePte .new v) (i := i)
    (by rw [← hnum] at h0; exact h0) (by rw [← hnum] at hi; exact hi)
  exact hremote.trans h.refetch

/-- The block that is left has no local page. -/
theorem Moved.localPage_done (h : s.Moved u c s.numSubblock) (hi : i < s.numSubblock) (v : V) :
    (((u.cowMkwritePte .new v).setBlockRemote).gpa .old i).localPage = none := by
  have hold := h.old i
  rw [if_pos hi, Option.map_eq_none_iff] at hold
  exact localPage_setBlockRemote.trans hold

/-- The faulting process reads its pages, the others what is fetched. -/
theorem Moved.read_done (h : s.Moved u c s.numSubblock) (hr : s.Ready c) (hi : i < s.numSubblock)
    {lp : CowPage V P} (hlp : (s.gpa .old i).localPage = some lp) (v : V) :
    ((u.cowMkwritePte .new c.vmr).setBlockRemote).read i c.vmr v =
      if v = c.vmr then s.content lp.page else s.refetch .old i := by
  obtain ⟨-, hpte, hcontent, -⟩ := h.fields
  have hpage := map_page_cowMkwritePte (s := u) (i := i) .new c.vmr v
  rw [hpte] at hpage
  by_cases hv : v = c.vmr
  · obtain ⟨w, hw⟩ := hr.mapped i lp hi hlp
    rw [hv, hw] at hpage
    obtain ⟨q, hq, hqpage⟩ := Option.map_eq_some_iff.mp hpage
    have hq' : ((u.cowMkwritePte .new c.vmr).setBlockRemote).pte c.vmr i = some q := hq
    have hcontent' : ((u.cowMkwritePte .new c.vmr).setBlockRemote).content = s.content := hcontent
    rw [if_pos hv, hv]
    simp only [read, hq', hcontent', hqpage]
  · rw [hr.others v i hv hi, Option.map_none, Option.map_eq_none_iff] at hpage
    have hpte' : ((u.cowMkwritePte .new c.vmr).setBlockRemote).pte v i = none := hpage
    rw [if_neg hv]
    simp only [read, hpte', if_neg hv, h.localPage_done hi c.vmr]
    exact h.refetch_done hr.pos hi c.vmr

/-- Everything is handed over if the donor is up to date. -/
theorem Moved.handedOver (h : s.Moved u c s.numSubblock) (hr : s.Ready c)
    (hcurrent : ∀ i lp, i < s.numSubblock → (s.gpa .old i).localPage = some lp →
      s.refetch .old i = s.content lp.page) :
    s.HandedOver ((u.cowMkwritePte .new c.vmr).setBlockRemote) c := by
  obtain ⟨hnum, hpte, -, hrss⟩ := h.fields
  have h0 : 0 < (u.cowMkwritePte .new c.vmr).numSubblock := by
    have hpos := hr.pos
    rw [← hnum] at hpos
    exact hpos
  refine ⟨fun i lp hi hlp => ?_, fun i hi => ?_, h.unlisted, ?_, fun i lp hi hlp => ?_, hrss⟩
  · have hnew := h.new i lp hi hlp
    rw [if_pos hi] at hnew
    have hpage := map_page_cowMkwritePte (s := u) (i := i) .new c.vmr c.vmr
    obtain ⟨w, hw⟩ := hr.mapped i lp hi hlp
    rw [hpte, hw] at hpage
    refine ⟨⟨lp.page, lp.mappers, 0, -32768, none⟩, ?_, rfl, rfl, h.backlink i lp hi hlp, hpage⟩
    simp only [setBlockRemote]
    rw [Function.update_of_ne (by decide)]
    exact hnew
  · have hi' : i < (u.cowMkwritePte .new c.vmr).numSubblock := by
      rw [← hnum] at hi
      exact hi
    refine ⟨h.localPage_done hi c.vmr, ?_, ?_, ?_⟩
    · simp [setBlockRemote, hi']
    · simp [setBlockRemote, hi']
    · rw [← h.word i]
      simp only [setBlockRemote, Function.update_self, if_pos hi']
      rfl
  · have htest := hr.test
    rw [canHandOff, Bool.and_eq_true, Bool.and_eq_true, ← h.isBlockRemotePageValid] at htest
    exact isBlockRemotePageValid_setBlockRemote h0 htest.1.2
  · rw [h.refetch_done hr.pos hi c.vmr]
    exact hcurrent i lp hi hlp

/-! ### After a copy -/

/-- The subblocks below `k` have been copied. -/
structure Copied (s u : CowSys V P D) (c : CowTake V) (k : ℕ) : Prop where
  stale : (u.gpa .old 0).flags .staleBlock = (s.gpa .old 0).flags .staleBlock
  old : ∀ j, (u.gpa .old j).localPage.map CowPage.page = (s.gpa .old j).localPage.map CowPage.page
  pte : ∀ j, u.pte c.vmr j = if j < k then some ⟨c.fresh j, true⟩ else s.pte c.vmr j
  others : ∀ v, v ≠ c.vmr → u.pte v = s.pte v
  copies : ∀ j lp, j < k → (s.gpa .old j).localPage = some lp →
    u.content (c.fresh j) = s.content lp.page
  originals : ∀ j lp, j < s.numSubblock → (s.gpa .old j).localPage = some lp →
    u.content lp.page = s.content lp.page

theorem Copied.copySubblock (h : s.Copied u c k) (hr : s.Ready c) (hk : k < s.numSubblock) :
    s.Copied (copySubblock c u k) c (k + 1) := by
  obtain ⟨lp, q, hlp, -⟩ := hr.sole hk
  obtain ⟨lp', hlp', hpage⟩ : ∃ lp', (u.gpa .old k).localPage = some lp' ∧ lp'.page = lp.page := by
    have hold := h.old k
    rw [hlp] at hold
    exact Option.map_eq_some_iff.mp hold
  have hfresh : (s.gpa .old 0).flags .staleBlock = false := by
    have htest := hr.test
    rw [canHandOff, Bool.and_eq_true, Bool.and_eq_true, Bool.not_eq_true', Bool.or_eq_false_iff]
      at htest
    exact htest.1.1.2
  have hside : CowSide.old ≠ .new := by decide
  have hcopied : u.content lp'.page = s.content lp.page := by
    rw [hpage]
    exact h.originals k lp hk hlp
  simp only [CowSys.copySubblock, hlp', h.stale, hfresh, Bool.false_eq_true, if_false, setGpa,
    hcopied]
  refine ⟨?_, fun j => ?_, fun j => ?_, fun v hv => ?_, fun j l hj hl => ?_, fun j l hj hl => ?_⟩
  all_goals dsimp only
  · rw [Function.update_self, Function.update_of_ne hside]
    by_cases hjk : 0 = k
    · rw [hjk, Function.update_self, ← hjk, h.stale, hfresh]
    · rw [Function.update_of_ne hjk, h.stale, hfresh]
  · rw [Function.update_self, Function.update_of_ne hside]
    by_cases hjk : j = k
    · rw [hjk, Function.update_self, hlp, Option.map_some, Option.map_some, hpage]
    · rw [Function.update_of_ne hjk, h.old]
  · rw [Function.update_self]
    by_cases hjk : j = k
    · rw [hjk, Function.update_self, if_pos (Nat.lt_succ_self k)]
    · rw [Function.update_of_ne hjk, h.pte]
      exact if_congr (by omega) rfl rfl
  · rw [Function.update_of_ne hv, h.others v hv]
  · by_cases hjk : j = k
    · rw [hjk, hlp] at hl
      rw [hjk, Function.update_self, Option.some.inj hl]
    · have hne : c.fresh j ≠ c.fresh k := fun heq =>
        hjk (hr.distinct j k (by omega) hk heq)
      rw [Function.update_of_ne hne]
      exact h.copies j l (by omega) hl
  · have hne : l.page ≠ c.fresh k := Ne.symm (hr.free k j l hk hj hl)
    rw [Function.update_of_ne hne]
    exact h.originals j l hj hl

theorem copied_foldl (hr : s.Ready c) (hk : k ≤ s.numSubblock) :
    s.Copied ((List.range k).foldl (copySubblock c) s) c k := by
  induction k with
  | zero =>
    refine ⟨rfl, fun _ => rfl, fun j => ?_, fun _ _ => rfl, fun j _ hj => ?_, fun _ _ _ _ => rfl⟩
    · rw [if_neg (Nat.not_lt_zero j)]
      rfl
    · exact absurd hj (Nat.not_lt_zero j)
  | succ k ih =>
    rw [List.range_succ, List.foldl_append]
    exact (ih (by omega)).copySubblock hr (by omega)

omit [DecidableEq V] in
theorem setGpa_old (g : CowGpa V P) : (s.setGpa .new i g).gpa .old = s.gpa .old := by
  simp only [setGpa]
  rw [Function.update_of_ne (by decide)]

/-- The faulting process reads the copies, the others the originals. -/
theorem read_dupCowGpadescLocal (hr : s.Ready c) (hi : i < s.numSubblock) {lp : CowPage V P}
    (hlp : (s.gpa .old i).localPage = some lp) (v : V) :
    (s.dupCowGpadescLocal c).read i c.vmr v = s.content lp.page := by
  have hcopied := copied_foldl hr le_rfl
  set t := (List.range s.numSubblock).foldl (CowSys.copySubblock c) s with ht
  have hdup : s.dupCowGpadescLocal c = t.setGpa .new 0 { t.gpa .new 0 with
    flags := Function.update (t.gpa .new 0).flags .hpt true } := rfl
  have hpte : (s.dupCowGpadescLocal c).pte = t.pte := by rw [hdup, setGpa]
  have hcontent : (s.dupCowGpadescLocal c).content = t.content := by rw [hdup, setGpa]
  have hgpa : (s.dupCowGpadescLocal c).gpa .old = t.gpa .old := by
    rw [hdup, setGpa_old]
  by_cases hv : v = c.vmr
  · have hown := hcopied.pte i
    rw [if_pos hi] at hown
    rw [hv]
    simp only [read, hpte, hown, hcontent]
    exact hcopied.copies i lp hi hlp
  · have hnone := hr.others v i hv hi
    rw [← hcopied.others v hv] at hnone
    obtain ⟨lp', hlp', hpage⟩ : ∃ lp', (t.gpa .old i).localPage = some lp' ∧
        lp'.page = lp.page := by
      have hold := hcopied.old i
      rw [hlp] at hold
      exact Option.map_eq_some_iff.mp hold
    simp only [read, hpte, hnone, if_neg hv, hgpa, hlp', hcontent, hpage]
    exact hcopied.originals i lp hi hlp

/-! ### The agreement -/

omit [DecidableEq V] in
theorem initNew_old : s.initNew.gpa .old = s.gpa .old := by
  simp only [initNew]
  rw [Function.update_of_ne (by decide)]

omit [DecidableEq V] in
theorem localPage_initNew : (s.initNew.gpa .new i).localPage = (s.gpa .new i).localPage := by
  simp only [initNew, Function.update_self]
  split_ifs
  · rfl
  · rfl

/-- The flags of the new descriptors do not matter for the test. -/
theorem Ready.initNew (hr : s.Ready c) : s.initNew.Ready c where
  pos := hr.pos
  test := by
    have htest := hr.test
    simp only [canHandOff, isBlockRemotePageValid, blockMappedByOnly] at htest ⊢
    rw [initNew_old]
    exact htest
  legal := by
    rw [initNew_old]
    exact hr.legal
  own := by
    rw [initNew_old]
    exact hr.own
  backlink := by
    rw [initNew_old]
    exact hr.backlink
  unused := fun i => localPage_initNew.trans (hr.unused i)
  active := by
    rw [initNew_old]
    exact hr.active
  listed := by
    rw [initNew_old]
    exact hr.listed
  mapped := by
    rw [initNew_old]
    exact hr.mapped
  others := hr.others
  free := by
    rw [initNew_old]
    exact hr.free
  distinct := hr.distinct

/-- A handoff as a whole. -/
theorem dupCowGpadescHandoff_cases (hr : s.Ready c) :
    ((∀ j, j < s.numSubblock → c.alloc j = true) ∧ ∃ u, s.Moved u c s.numSubblock ∧
      s.dupCowGpadescHandoff c = (true, (u.cowMkwritePte .new c.vmr).setBlockRemote)) ∨
    ((∃ j, j < s.numSubblock ∧ c.alloc j = false) ∧ s.dupCowGpadescHandoff c = (false, s)) := by
  obtain ⟨hall, hsome⟩ := Taken.handoffLoop (taken_none (c := c) hr le_rfl) hr
    (Nat.zero_add s.numSubblock)
  cases hloop : s.handoffLoop c 0 s.numSubblock with
  | mk ok t =>
    rw [hloop] at hall hsome
    by_cases halloc : ∀ j, j < s.numSubblock → c.alloc j = true
    · refine Or.inl ⟨halloc, ?_⟩
      obtain ⟨hok, htaken⟩ := hall fun j _ hj => halloc j hj
      dsimp only at hok htaken
      refine ⟨_, (htaken.removed hr).foldl hr le_rfl, ?_⟩
      simp only [dupCowGpadescHandoff, handoffBlockLocalPage, hloop, hok]
    · refine Or.inr ?_
      obtain ⟨j, hj, hfail⟩ : ∃ j, j < s.numSubblock ∧ ¬ c.alloc j = true := by
        by_contra hnone
        exact halloc fun j hj => by_contra fun hfail => hnone ⟨j, hj, hfail⟩
      have hfail' : c.alloc j = false := by simpa using hfail
      obtain ⟨hok, l, hl, htaken⟩ := hsome ⟨j, Nat.zero_le j, hj, hfail'⟩
      dsimp only at hok htaken
      refine ⟨⟨j, hj, hfail'⟩, ?_⟩
      have hnum := htaken.numSubblock
      have hundo : t.undoLoop 0 s.numSubblock = s := htaken.undoLoop hr hl (by omega)
      simp only [dupCowGpadescHandoff, handoffBlockLocalPage, hloop, hok, hundo]

omit [DecidableEq V] in
theorem refetch_initNew : s.initNew.refetch .old i = s.refetch .old i := by
  rw [refetch, refetch, initNew_old]
  rfl

omit [DecidableEq V] in
theorem HandedOver.of_initNew (h : s.initNew.HandedOver u c) : s.HandedOver u c where
  pages := by
    have hpages := h.pages
    rw [initNew_old] at hpages
    exact hpages
  remote := by
    have hremote := h.remote
    rw [initNew_old] at hremote
    exact hremote
  unlisted := h.unlisted
  valid := h.valid
  holds := by
    have hholds := h.holds
    rw [initNew_old] at hholds
    exact hholds
  rss := h.rss

/-! ### A write that leaves no mark -/

/-- Neither the protection nor the contents matter for the test. -/
theorem Ready.of_protection (hr : s.Ready c)
    (hrest : { t with gpa := s.gpa, pte := s.pte, content := s.content, shared := s.shared } = s)
    (hnew : t.gpa .new = s.gpa .new)
    (hold : ∀ i, ∃ w, t.gpa .old i =
      { s.gpa .old i with flags := Function.update (s.gpa .old i).flags .wprotect w })
    (hpte : ∀ u i, (t.pte u i).map CowPte.page = (s.pte u i).map CowPte.page) : t.Ready c := by
  have hnum : t.numSubblock = s.numSubblock := (congrArg CowSys.numSubblock hrest :)
  have hlists : t.lists = s.lists := (congrArg CowSys.lists hrest :)
  have hhead : t.head = s.head := (congrArg CowSys.head hrest :)
  have hlinks : t.backlink = s.backlink := (congrArg CowSys.backlink hrest :)
  have hcpus : t.possibleCpus = s.possibleCpus := (congrArg CowSys.possibleCpus hrest :)
  have hlp : ∀ i, (t.gpa .old i).localPage = (s.gpa .old i).localPage := by
    intro i
    obtain ⟨w, hw⟩ := hold i
    rw [hw]
  have hstate : ∀ i, (t.gpa .old i).rState = (s.gpa .old i).rState := by
    intro i
    obtain ⟨w, hw⟩ := hold i
    rw [hw]
  have hword : ∀ i, (t.gpa .old i).word = (s.gpa .old i).word := by
    intro i
    obtain ⟨w, hw⟩ := hold i
    rw [hw]
  have hflag : ∀ i f, f ≠ .wprotect → (t.gpa .old i).flags f = (s.gpa .old i).flags f := by
    intro i f hf
    obtain ⟨w, hw⟩ := hold i
    rw [hw]
    exact Function.update_of_ne hf _ _
  constructor
  case pos => exact hnum ▸ hr.pos
  case test =>
    have htest := hr.test
    simp only [canHandOff, isBlockRemotePageValid, blockMappedByOnly, hlp, hstate, hword, hnum,
      hflag 0 .partialMap (by decide), hflag 0 .dirty (by decide),
      hflag 0 .staleBlock (by decide), hflag 0 .touched (by decide)] at htest ⊢
    exact htest
  case legal => simpa only [hlp] using hr.legal
  case own => simpa only [hlp, hnum] using hr.own
  case backlink => simpa only [hlp, hnum, hlinks] using hr.backlink
  case unused => simpa only [hnew] using hr.unused
  case active => exact (hstate 0).trans hr.active
  case listed =>
    intro lp hloc l
    have hlist : ∀ b, t.listOf b lp = s.listOf b lp := by
      intro b
      rw [listOf, listOf, hcpus]
    rw [hlp] at hloc
    rw [hlist, hlists, hhead, hflag 0 .proactive (by decide)]
    exact hr.listed lp hloc l
  case mapped =>
    intro i lp hi hloc
    rw [hlp] at hloc
    obtain ⟨w, hw⟩ := hr.mapped i lp (hnum ▸ hi) hloc
    have hpage := hpte c.vmr i
    rw [hw, Option.map_some, Option.map_eq_some_iff] at hpage
    obtain ⟨⟨page, w'⟩, hpte', hpage⟩ := hpage
    have hpage' : page = lp.page := hpage
    exact ⟨w', by rw [hpte', hpage']⟩
  case others =>
    intro u i hu hi
    have hpage := hpte u i
    rw [hr.others u i hu (hnum ▸ hi), Option.map_none] at hpage
    exact Option.map_eq_none_iff.mp hpage
  case free => simpa only [hlp, hnum] using hr.free
  case distinct => simpa only [hnum] using hr.distinct

omit [DecidableEq V] in
/-- A block whose protection stays. -/
theorem gpa_eq_flags (i : ℕ) : ∃ w, s.gpa .old i =
    { s.gpa .old i with flags := Function.update (s.gpa .old i).flags .wprotect w } :=
  ⟨(s.gpa .old i).flags .wprotect, by rw [Function.update_eq_self]⟩

/-- A block that is not protected: its owner is granted a write, and nothing else changes. -/
theorem Ready.grantWrite_eq (hr : s.Ready c) (hw : (s.gpa .old 0).flags .wprotect = false) :
    s.grantWrite c.vmr = s.cowMkwritePte .old c.vmr := by
  obtain ⟨lp, q, hlp, -⟩ := hr.sole hr.pos
  have hw' : ¬ (s.gpa .old 0).flags .wprotect = true := by
    rw [hw]
    exact Bool.false_ne_true
  rw [grantWrite, if_neg fun h => hw' h.1, if_neg hw']
  exact if_pos ⟨hr.active, by rw [hlp]; rfl⟩

/-- After the grant, a write and a fork the block meets the test as before. -/
theorem Ready.protect_write (hr : s.Ready c) (hw : (s.gpa .old 0).flags .wprotect = false)
    (i : ℕ) (x : D) : (((s.grantWrite c.vmr).write i c.vmr x).protect c.vmr).Ready c := by
  have hgrant : (s.grantWrite c.vmr).Ready c := by
    rw [hr.grantWrite_eq hw]
    exact hr.of_protection rfl rfl gpa_eq_flags
      fun u j => map_page_cowMkwritePte .old c.vmr u
  have hwrite : ((s.grantWrite c.vmr).write i c.vmr x).Ready c := by
    rw [write]
    cases (s.grantWrite c.vmr).pte c.vmr i with
    | none => exact hgrant
    | some q =>
      dsimp only
      split_ifs
      · exact hgrant.of_protection rfl rfl gpa_eq_flags fun _ _ => rfl
      · exact hgrant
  have hside : CowSide.new ≠ .old := by decide
  refine hwrite.of_protection rfl ?_ (fun j => ⟨true, ?_⟩) fun u j => ?_
  · simp only [protect]
    rw [Function.update_of_ne hside]
  · simp only [protect, Function.update_self]
  · simp only [protect]
    by_cases hu : u = c.vmr
    · rw [hu, Function.update_self, Option.map_map]
      rfl
    · rw [Function.update_of_ne hu]

/-- What a fault would fetch is what it would have fetched before. -/
theorem Ready.refetch_protect_write (hr : s.Ready c)
    (hw : (s.gpa .old 0).flags .wprotect = false) (x : D) :
    (((s.grantWrite c.vmr).write i c.vmr x).protect c.vmr).refetch .old j = s.refetch .old j := by
  have hrefetch : ((s.grantWrite c.vmr).write i c.vmr x).refetch .old j = s.refetch .old j := by
    rw [hr.grantWrite_eq hw, write]
    cases (s.cowMkwritePte .old c.vmr).pte c.vmr i with
    | none => rfl
    | some q =>
      dsimp only
      split_ifs
      · rfl
      · rfl
  rw [← hrefetch]
  simp [refetch, protect]

/-- What its pages hold is what has been written. -/
theorem Ready.content_protect_write (hr : s.Ready c)
    (hw : (s.gpa .old 0).flags .wprotect = false) (hi : i < s.numSubblock) {lp : CowPage V P}
    (hlp : (s.gpa .old i).localPage = some lp) (x : D) :
    (((s.grantWrite c.vmr).write i c.vmr x).protect c.vmr).content lp.page = x := by
  obtain ⟨lp', q, hlp', hmap⟩ := hr.sole hi
  obtain ⟨w, hpte⟩ := hr.mapped i lp hi hlp
  have hgranted : (s.grantWrite c.vmr).pte c.vmr i = some ⟨lp.page, true⟩ := by
    rw [hr.grantWrite_eq hw]
    simp [cowMkwritePte, hi, hlp', hmap, hpte, MapperList.empLpLookupPmd, MapperList.records,
      MappedPmd.isOf]
  simp [protect, write, hgranted]

/-! ### When it agrees -/

/-- A handoff agrees with a copy exactly if it fails, or if a fault would fetch for each subblock
what its pages hold. -/
theorem handoffOk_iff (hr : s.Ready c) :
    s.HandoffOk c ↔ (∃ i, i < s.numSubblock ∧ c.alloc i = false) ∨
      ∀ i lp, i < s.numSubblock → (s.gpa .old i).localPage = some lp →
        s.refetch .old i = s.content lp.page := by
  have hr' := hr.initNew
  rcases dupCowGpadescHandoff_cases hr' with ⟨halloc, u, hmoved, hdone⟩ | ⟨hfail, hundone⟩
  · -- it succeeds: the others are left with the donor
    rw [HandoffOk, hdone]
    refine ⟨fun hok => Or.inr fun i lp hi hlp => ?_, fun hcurrent => ?_⟩
    · rw [← (hok.2 rfl).1.holds i lp hi hlp, ← refetch_initNew]
      exact (hmoved.refetch_done hr'.pos hi c.vmr).symm
    · rcases hcurrent with ⟨j, hj, hfail⟩ | hcurrent
      · rw [halloc j hj] at hfail
        exact absurd hfail (by decide)
      · have hcurrent' : ∀ i lp, i < s.initNew.numSubblock →
            (s.initNew.gpa .old i).localPage = some lp →
              s.initNew.refetch .old i = s.initNew.content lp.page := by
          intro i lp hi hlp
          rw [initNew_old] at hlp
          rw [refetch_initNew]
          exact hcurrent i lp hi hlp
        refine ⟨fun hfail => Bool.noConfusion hfail, fun _ => ⟨?_, fun v i hi => ?_⟩⟩
        · exact (hmoved.handedOver hr' hcurrent').of_initNew
        · obtain ⟨lp, q, hlp, -⟩ := hr'.sole hi
          rw [hmoved.read_done hr' hi hlp, read_dupCowGpadescLocal hr' hi hlp]
          split_ifs
          · rfl
          · exact hcurrent' i lp hi hlp
  · -- it fails: nothing has changed
    have hlocal : s.dupCowGpadesc c = s.initNew.dupCowGpadescLocal c := by
      simp only [dupCowGpadesc, hr'.test, if_true, hundone]
    have hfail' : ∃ i, i < s.numSubblock ∧ c.alloc i = false := hfail
    rw [HandoffOk, hundone]
    refine ⟨fun _ => Or.inl hfail', fun _ => ⟨fun _ => ⟨rfl, hlocal⟩, fun hok => ?_⟩⟩
    exact Bool.noConfusion hok

/-- Two subblocks that were fetched, of which the process 0 is the only mapper. -/
def fetchedBlock : CowSys ℕ ℕ ℕ where
  numSubblock := 2
  blockSize := 2
  possibleCpus := 1
  gpa b i :=
    match b with
    | .old => ⟨fun f => f = .touched, .active,
        if i < 2 then some ⟨i, ⟨⟨some 0, some i⟩, some [], 1⟩, 1, 0, none⟩ else none,
        .plain (.page 0 i)⟩
    | .new => ⟨fun _ => false, .init, none, .plain .free⟩
  head b := if b = .old then 0 else 1
  shared := false
  backlink p := some (.old, p)
  lists l := if l = .global false then [0] else []
  pageLen _ := 2
  curPinPages := 0
  rss _ := 2
  pte u i := if u = 0 ∧ i < 2 then some ⟨i, false⟩ else none
  content p := p
  donor rp :=
    match rp with
    | .free => 0
    | .page _ offset => offset
  crp _ := .free
  zero := 0

/-- A fault of the process 0, which finds room for the local pages. -/
def roomyTake : CowTake ℕ := ⟨0, 1, fun _ => true, fun i => i + 2⟩

theorem ready_fetchedBlock : fetchedBlock.Ready roomyTake where
  pos := by decide
  test := by decide
  legal i lp hlp := by
    by_cases hi : i < 2
    · simp only [fetchedBlock, if_pos hi, Option.some.injEq] at hlp
      subst hlp
      refine ⟨⟨?_, ?_⟩, ?_, .mapped ?_ ?_ ?_⟩
      · simp [MapperList.records]
      · simp [MapperList.records]
      · simp [MapperList.records]
      · simp
      · simp
      · simp
    · exact absurd ((if_neg hi).symm.trans hlp) (by simp)
  own i j lp lp' hi hj hlp hlp' heq := by
    simp only [fetchedBlock] at hi hj hlp hlp'
    simp only [if_pos hi, if_pos hj, Option.some.injEq] at hlp hlp'
    subst hlp hlp'
    exact heq
  backlink i lp hi hlp := by
    simp only [fetchedBlock] at hi hlp
    simp only [if_pos hi, Option.some.injEq] at hlp
    subst hlp
    rfl
  unused _ := rfl
  active := rfl
  listed lp hlp l := by
    simp only [fetchedBlock, Nat.zero_lt_two, if_true, Option.some.injEq] at hlp
    subst hlp
    by_cases hl : l = .global false
    · simp [fetchedBlock, listOf, hl]
    · simp [fetchedBlock, listOf, hl]
  mapped i lp hi hlp := by
    simp only [fetchedBlock] at hi hlp
    simp only [if_pos hi, Option.some.injEq] at hlp
    subst hlp
    exact ⟨false, if_pos ⟨rfl, hi⟩⟩
  others u i hu hi := if_neg fun h => hu h.1
  free i j lp hi hj hlp := by
    simp only [fetchedBlock] at hi hj hlp
    simp only [if_pos hj, Option.some.injEq] at hlp
    subst hlp
    simp only [roomyTake]
    omega
  distinct i j hi hj h := by
    simp only [roomyTake] at h
    omega

/-- The block is handed over as it should be, but not after a write that the owner was granted
without a fault of its own. -/
theorem handoffOk_iff_fetchedBlock : fetchedBlock.HandoffOk roomyTake ∧
    ¬ (((fetchedBlock.grantWrite 0).write 0 0 9).protect 0).HandoffOk roomyTake := by
  have hr := ready_fetchedBlock
  refine ⟨(handoffOk_iff hr).mpr (Or.inr fun i lp hi hlp => ?_), fun hok => ?_⟩
  · simp only [fetchedBlock] at hi hlp
    simp only [if_pos hi, Option.some.injEq] at hlp
    subst hlp
    simp [fetchedBlock, refetch]
  · rcases (handoffOk_iff (hr.protect_write rfl 0 9)).mp hok with ⟨i, -, hi⟩ | hcurrent
    · exact Bool.noConfusion hi
    · obtain ⟨lp, hlp⟩ : ∃ lp, (fetchedBlock.gpa .old 0).localPage = some lp := ⟨_, rfl⟩
      have hcontent := hr.content_protect_write rfl Nat.zero_lt_two hlp 9
      have hrefetch := hr.refetch_protect_write (i := 0) (j := 0) rfl 9
      have hlp' : ((((fetchedBlock.grantWrite 0).write 0 0 9).protect 0).gpa .old 0).localPage =
          some lp := hlp
      have h := hcurrent 0 lp Nat.zero_lt_two hlp'
      have hzero : fetchedBlock.refetch .old 0 = 0 := by decide
      exact absurd (hcontent.symm.trans (h.symm.trans (hrefetch.trans hzero))) (by decide)

end CowSys

end Emp
