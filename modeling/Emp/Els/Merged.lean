import Emp.Els.Merging

/-!
# The lists of a stretched block

Between two rounds of a stretch, the head of the growing block may be on a list or not, and
members that have been absorbed are still on theirs.  The counters have what is outside the block:
the buddy is taken off its counter before it is merged.  At the end, the block is counted once,
and every list holds what the descriptors tell of.

## Main definitions

* `ElasticSys.Listed` — the lists agree with the descriptors.
* `ElasticSys.Ready` — the blocks, lists and counters of a fault that has fetched a block.
* `ElasticSys.Stretching` — what holds between two rounds.
* `ElasticSys.Merged` — what a stretch is to leave of the lists.
-/

namespace Emp

namespace ElasticSys

/-- The list that a descriptor tells of. -/
def listOf (s : ElasticSys) (g : ℕ) : Option SlruList := (s.gpa g).list s.possibleCpus

/-- The members of the block at a head. -/
def InBlock (s : ElasticSys) (h g : ℕ) : Prop := h ≤ g ∧ g < h + 2 ^ (s.gpa h).order

instance (s : ElasticSys) (h g : ℕ) : Decidable (s.InBlock h g) :=
  inferInstanceAs (Decidable (_ ∧ _))

/-- What a descriptor adds to a `page_len`. -/
def weight (s : ElasticSys) (proactive : Bool) (g : ℕ) : ℤ :=
  if (s.listOf g).map SlruList.proactive = some proactive then s.blockSize g else 0

/-- The sizes of all blocks on the lists of an `slru`. -/
def pages (s : ElasticSys) (proactive : Bool) : ℤ := tally s.numGpa (s.weight proactive)

/-- Every list has, once each, the descriptors that tell of it. -/
structure Listed (s : ElasticSys) : Prop where
  mem_iff : ∀ l g, g ∈ s.lists l ↔ s.listOf g = some l
  nodup : ∀ l, (s.lists l).Nodup
  lt : ∀ g, s.listOf g ≠ none → g < s.numGpa

/-- An active block that nobody holds and that is not pinned is on a list of its `slru`. -/
def Resident (s : ElasticSys) (g : ℕ) : Prop :=
  s.empGetBlockHead g = g → (s.gpa g).rState = .active → s.mine g = false → s.others g = false →
    (s.gpa g).flags .pinned = false → (s.gpa g).isLocalPageOnList = true

/-- A fault has fetched the block at `k`, which it holds and which is on no list yet. -/
structure Ready (s : ElasticSys) (k : ℕ) : Prop where
  listed : s.Listed
  tiled : Tiled 0 s.numGpa fun g => (s.gpa g).order
  heads : ∀ g, s.listOf g ≠ none → s.empGetBlockHead g = g
  resident : ∀ g, s.Resident g
  counts : ∀ p, s.pageLen p = s.pages p
  lt : k < s.numGpa
  head : s.empGetBlockHead k = k
  unlisted : s.listOf k = none
  held : s.mine k = true

/-- Between two rounds with the head `h`. -/
structure Stretching (s : ElasticSys) (h : ℕ) : Prop where
  listed : s.Listed
  tiled : Tiled 0 s.numGpa fun g => (s.gpa g).order
  heads : ∀ g, ¬ s.InBlock h g → s.listOf g ≠ none → s.empGetBlockHead g = g
  pinless : ∀ g, s.InBlock h g → s.listOf g ≠ none → (s.gpa g).isLocalPageOnList = true
  resident : ∀ g, ¬ s.InBlock h g → s.Resident g
  counts : ∀ p, s.pageLen p =
    tally s.numGpa fun g => if s.InBlock h g then 0 else s.weight p g
  lt : h < s.numGpa
  head : s.empGetBlockHead h = h
  page : (s.gpa h).localPage ≠ none

/-- The head of the merged block is on one list, once; the absorbed members are on none; the
counters are the sums of the block sizes. -/
structure Merged (s : ElasticSys) (h : ℕ) : Prop where
  listed : s.Listed
  head : ∃ l, ∀ l', (s.lists l').count h = if l' = l then 1 else 0
  absorbed : ∀ g, s.InBlock h g → g ≠ h → ∀ l, g ∉ s.lists l
  counts : ∀ p, s.pageLen p = s.pages p

section Blocks

variable {s t : ElasticSys} {h k g : ℕ}

theorem Listed.lists_eq_nil (hl : s.Listed) (hg : s.listOf g = none) (l : SlruList) :
    g ∉ s.lists l := by
  intro hmem
  rw [hl.mem_iff l g, hg] at hmem
  simp at hmem

theorem dvd_of_head (hh : s.empGetBlockHead h = h) : 2 ^ (s.gpa h).order ∣ h :=
  Dvd.intro_left _ hh

theorem inBlock_self : s.InBlock h h := ⟨le_rfl, Nat.lt_add_of_pos_right (Nat.two_pow_pos _)⟩

/-- Of the members of a block, only one is a head. -/
theorem eq_of_inBlock (ht : Tiled 0 s.numGpa fun g => (s.gpa g).order) (hlt : h < s.numGpa)
    (hh : s.empGetBlockHead h = h) (hin : s.InBlock h g) (hg : s.empGetBlockHead g = g) :
    g = h := by
  have hdiv := (div_eq_iff_of_dvd (dvd_of_head hh)).mpr hin
  have hord : (s.gpa g).order = (s.gpa h).order := (ht h (Nat.zero_le h) hlt g hdiv).2.2
  rw [empGetBlockHead, hord, alignDown_congr hdiv] at hg
  exact hg.symm.trans hh

/-- A block that is on one of the `slru`'s own lists is counted by it. -/
theorem slru_of_on_list (hon : (s.gpa g).isLocalPageOnList = true) :
    (s.listOf g).map SlruList.proactive = some ((s.gpa g).flags .proactive) := by
  rw [ElasticGpa.isLocalPageOnList] at hon
  rw [listOf, ElasticGpa.list]
  cases hlp : (s.gpa g).localPage with
  | none => simp [hlp] at hon
  | some lp =>
    simp only [hlp, decide_eq_true_eq] at hon
    rcases hon with hon | hon | hon <;> rw [Option.bind_some, hon] <;> rfl

theorem listOf_ne_none (hon : (s.gpa g).isLocalPageOnList = true) : s.listOf g ≠ none := by
  intro hnone
  have := slru_of_on_list hon
  rw [hnone] at this
  simp at this

end Blocks

end ElasticSys

/-! ### A round -/

/-- Two descriptors that tell of the same list. -/
def ElasticGpa.SamePlace (d d' : ElasticGpa) : Prop :=
  d'.flags .proactive = d.flags .proactive ∧
    d'.localPage.map (fun lp => (lp.cpu, lp.on)) = d.localPage.map fun lp => (lp.cpu, lp.on)

namespace ElasticGpa.SamePlace

variable {d d' d'' : ElasticGpa}

theorem refl (d : ElasticGpa) : d.SamePlace d := ⟨rfl, rfl⟩

theorem trans (h : d.SamePlace d') (h' : d'.SamePlace d'') : d.SamePlace d'' :=
  ⟨h'.1.trans h.1, h'.2.trans h.2⟩

theorem page (h : d.SamePlace d') : d'.localPage = none ↔ d.localPage = none := by
  have := congrArg Option.isNone h.2
  simp only [Option.isNone_map] at this
  rw [← Option.isNone_iff_eq_none, ← Option.isNone_iff_eq_none, this]

theorem list (h : d.SamePlace d') (n : ℤ) : d'.list n = d.list n := by
  obtain ⟨hflag, hpage⟩ := h
  rw [ElasticGpa.list, ElasticGpa.list, hflag]
  cases hd : d.localPage <;> cases hd' : d'.localPage <;> simp_all

theorem isLocalPageOnList (h : d.SamePlace d') : d'.isLocalPageOnList = d.isLocalPageOnList := by
  obtain ⟨-, hpage⟩ := h
  rw [ElasticGpa.isLocalPageOnList, ElasticGpa.isLocalPageOnList]
  cases hd : d.localPage <;> cases hd' : d'.localPage <;> simp_all

end ElasticGpa.SamePlace

namespace ElasticSys

/-- What a round leaves as it is. -/
structure SamePlaces (s t : ElasticSys) : Prop where
  numGpa : t.numGpa = s.numGpa
  sbOrder : t.sbOrder = s.sbOrder
  possibleCpus : t.possibleCpus = s.possibleCpus
  lists : t.lists = s.lists
  others : t.others = s.others
  place : ∀ g, (s.gpa g).SamePlace (t.gpa g)

namespace SamePlaces

variable {s t u : ElasticSys}

theorem refl (s : ElasticSys) : s.SamePlaces s :=
  ⟨rfl, rfl, rfl, rfl, rfl, fun _ => .refl _⟩

theorem trans (h : s.SamePlaces t) (h' : t.SamePlaces u) : s.SamePlaces u :=
  ⟨h'.numGpa.trans h.numGpa, h'.sbOrder.trans h.sbOrder, h'.possibleCpus.trans h.possibleCpus,
    h'.lists.trans h.lists, h'.others.trans h.others, fun g => (h.place g).trans (h'.place g)⟩

theorem listOf (h : s.SamePlaces t) (g : ℕ) : t.listOf g = s.listOf g := by
  rw [ElasticSys.listOf, ElasticSys.listOf, (h.place g).list, h.possibleCpus]

theorem listed (h : s.SamePlaces t) (hl : s.Listed) : t.Listed := by
  refine ⟨fun l g => ?_, fun l => ?_, fun g hg => ?_⟩
  · rw [h.lists, h.listOf]
    exact hl.mem_iff l g
  · rw [h.lists]
    exact hl.nodup l
  · rw [h.numGpa]
    rw [h.listOf] at hg
    exact hl.lt g hg

/-- Another descriptor in one place. -/
theorem setGpa {k : ℕ} {d : ElasticGpa} (h : (s.gpa k).SamePlace d) :
    s.SamePlaces (s.setGpa k d) := by
  refine ⟨rfl, rfl, rfl, rfl, rfl, fun g => ?_⟩
  rw [ElasticSys.setGpa]
  by_cases hg : g = k
  · rw [hg]
    simpa using h
  · simp only [Function.update_of_ne hg]
    exact .refl _

end SamePlaces

theorem samePlace_setFlag {d : ElasticGpa} {f : GpaFlag} {v : Bool} (hf : f ≠ .proactive) :
    d.SamePlace (d.setFlag f v) := by
  refine ⟨?_, rfl⟩
  rw [ElasticGpa.setFlag]
  exact Function.update_of_ne (Ne.symm hf) ..

theorem pageLen_addPageLen (s : ElasticSys) (q p : Bool) (n : ℤ) :
    (s.addPageLen q n).pageLen p = s.pageLen p + if q = p then n else 0 := by
  simp only [addPageLen]
  by_cases hq : q = p
  · rw [if_pos hq, hq, Function.update_self]
  · rw [if_neg hq, Function.update_of_ne (Ne.symm hq), add_zero]

section Round

variable (s : ElasticSys) (super p : ℕ)

theorem setGpa_of_ne {s : ElasticSys} {k g : ℕ} (d : ElasticGpa) (h : g ≠ k) :
    (s.setGpa k d).gpa g = s.gpa g := Function.update_of_ne h ..

@[simp] theorem setGpa_self (k : ℕ) (d : ElasticGpa) : (s.setGpa k d).gpa k = d :=
  Function.update_self ..

/-- The upper half of a block of positive order. -/
theorem member_ne (n : ℕ) : super + 2 ^ n ≠ super := by
  have := Nat.two_pow_pos n
  omega

/-- Only the head of the merged block and the descriptor that was absorbed change, and what
matters for the lists stays. -/
theorem gpa_elsUpdateGpaFlags (g : ℕ) :
    (g ≠ super → g ≠ p → g ≠ super + 2 ^ ((s.gpa super).order - 1) →
      (s.elsUpdateGpaFlags super p).gpa g = s.gpa g) ∧
    (((s.elsUpdateGpaFlags super p).gpa g).order = (s.gpa g).order ∧
      ((s.elsUpdateGpaFlags super p).gpa g).maxOrder = (s.gpa g).maxOrder) ∧
    (s.gpa g).SamePlace ((s.elsUpdateGpaFlags super p).gpa g) := by
  rw [elsUpdateGpaFlags]
  by_cases hne : super = p
  · rw [if_neg (not_not.mpr hne)]
    by_cases hm : g = super + 2 ^ ((s.gpa super).order - 1)
    · rw [hm, setGpa_self]
      refine ⟨fun _ _ h => absurd rfl h, ⟨rfl, rfl⟩, ?_, ?_⟩
      · simp [ElasticGpa.setFlag]
      · rw [Option.map_map]
        rfl
    · rw [setGpa_of_ne _ hm]
      by_cases hg : g = super
      · rw [hg, setGpa_self]
        refine ⟨fun h => absurd rfl h, ⟨rfl, rfl⟩, ?_, rfl⟩
        simp
      · rw [setGpa_of_ne _ hg]
        exact ⟨fun _ _ _ => rfl, ⟨rfl, rfl⟩, .refl _⟩
  · rw [if_pos hne]
    by_cases hp : g = p
    · rw [hp, setGpa_self]
      refine ⟨fun _ h => absurd rfl h, ⟨rfl, rfl⟩, ?_, rfl⟩
      simp
    · rw [setGpa_of_ne _ hp]
      by_cases hg : g = super
      · rw [hg, setGpa_self]
        refine ⟨fun h => absurd rfl h, ⟨rfl, rfl⟩, ?_, rfl⟩
        simp
      · rw [setGpa_of_ne _ hg]
        exact ⟨fun _ _ _ => rfl, ⟨rfl, rfl⟩, .refl _⟩

theorem elsUpdateGpaFlags_eq :
    s.elsUpdateGpaFlags super p = { s with gpa := (s.elsUpdateGpaFlags super p).gpa } := by
  rw [elsUpdateGpaFlags]
  split <;> rfl

/-- The orders of a merged block. -/
theorem order_elsStretch (g : ℕ) : ((s.elsStretch super p).gpa g).order =
    if super ≤ g ∧ g < super + 2 ^ ((s.gpa super).order + 1) then (s.gpa g).order + 1
    else (s.gpa g).order := by
  rw [elsStretch, (gpa_elsUpdateGpaFlags ..).2.1.1]
  simp only [incBlockOrder]
  split <;> rfl

theorem maxOrder_elsStretch (g : ℕ) :
    ((s.elsStretch super p).gpa g).maxOrder = (s.gpa g).maxOrder := by
  rw [elsStretch, (gpa_elsUpdateGpaFlags ..).2.1.2]
  simp only [incBlockOrder]
  split <;> rfl

theorem samePlaces_elsStretch : s.SamePlaces (s.elsStretch super p) := by
  rw [elsStretch, elsUpdateGpaFlags_eq]
  refine ⟨rfl, rfl, rfl, rfl, rfl, fun g => ?_⟩
  refine .trans ?_ (gpa_elsUpdateGpaFlags ..).2.2
  simp only [incBlockOrder]
  split
  · exact ⟨rfl, rfl⟩
  · exact .refl _

theorem mine_elsStretch : (s.elsStretch super p).mine = s.mine := by
  rw [elsStretch, elsUpdateGpaFlags_eq]
  rfl

theorem pageLen_elsStretch : (s.elsStretch super p).pageLen = s.pageLen := by
  rw [elsStretch, elsUpdateGpaFlags_eq]
  rfl

/-- Outside the merged block, nothing changes. -/
theorem gpa_elsStretch {g : ℕ} (hp : super ≤ p)
    (hpn : p < super + 2 ^ ((s.gpa super).order + 1))
    (hg : ¬ (super ≤ g ∧ g < super + 2 ^ ((s.gpa super).order + 1))) :
    (s.elsStretch super p).gpa g = s.gpa g := by
  have hpos := Nat.two_pow_pos (s.gpa super).order
  have hsuper : ((s.incBlockOrder super (2 ^ ((s.gpa super).order + 1))).gpa super).order =
      (s.gpa super).order + 1 := by
    simp only [incBlockOrder]
    rw [if_pos ⟨le_rfl, by omega⟩]
  rw [elsStretch, (gpa_elsUpdateGpaFlags ..).1 (by omega) (by omega) (by
    rw [hsuper, Nat.add_sub_cancel]
    omega)]
  simp only [incBlockOrder]
  rw [if_neg hg]

/-- The buddy that a round found: the other half of the merged block, free until now. -/
structure Found (s : ElasticSys) (c : StretchCall) (k super p : ℕ) : Prop where
  super_eq : super = alignDown ((s.gpa k).order + 1) k
  buddy : if super = k then p = k + 2 ^ (s.gpa k).order else p = super
  order : (s.gpa p).order = (s.gpa k).order
  active : (s.gpa p).rState = .active
  unpinned : (s.gpa p).flags .pinned = false
  wprotect : (s.gpa k).flags .wprotect = (s.gpa p).flags .wprotect
  mine : s.mine p = false
  others : s.others p = false

variable {s : ElasticSys} {c : StretchCall} {k super p : ℕ} {t : ElasticSys}

theorem elsIsStretchable_some (h : s.elsIsStretchable c k super = some (p, t))
    (hsuper : super = alignDown ((s.gpa k).order + 1) k) :
    s.Found c k super p ∧ t = { s with mine := Function.update s.mine p true } := by
  simp only [elsIsStretchable, Option.ite_none_left_eq_some, Option.bind_eq_some_iff] at h
  obtain ⟨-, -, hflags, hstate, u, hlock, htest, hsome⟩ := h
  simp only [empTrylockBlock, Option.ite_none_left_eq_some, Option.some.injEq] at hlock
  simp only [Option.some.injEq, Prod.mk.injEq] at hsome
  obtain ⟨hp, rfl⟩ := hsome
  obtain ⟨hfree, rfl⟩ := hlock
  rw [hp] at hflags hstate htest hfree ⊢
  simp only [not_or, Bool.not_eq_true, ne_eq, not_not] at hfree hflags hstate htest
  refine ⟨⟨hsuper, ?_, hstate.2.symm, hstate.1, hflags.2, htest.2.2.2.1, hfree.1, hfree.2⟩, rfl⟩
  rw [← hp]
  by_cases hk : super = k
  · rw [if_pos hk, if_pos hk, hk]
  · rw [if_neg hk, if_neg hk]

theorem stretchRound_some {r : ElasticSys} (h : s.stretchRound c k = some (r, super, p)) :
    s.Found c k super p ∧ r = ((({ s with mine := Function.update s.mine p true } :
      ElasticSys).addPageLen ((s.gpa p).flags .proactive) (-(s.blockSize p))).elsStretch super
        p).empUnlockBlock (if k < p then p else k) := by
  obtain ⟨super', hsuper, h⟩ := Option.bind_eq_some_iff.mp h
  obtain ⟨⟨p', t⟩, hfound, hr⟩ := Option.map_eq_some_iff.mp h
  simp only [Prod.mk.injEq] at hr
  obtain ⟨rfl, rfl, rfl⟩ := hr
  simp only [elsGetSuperHead, Option.ite_none_left_eq_some, Option.some.injEq] at hsuper
  obtain ⟨hf, rfl⟩ := elsIsStretchable_some hfound hsuper.2.symm
  exact ⟨hf, rfl⟩

/-- The two halves of the merged block. -/
theorem Found.halves (hf : s.Found c k super p) (hk : s.empGetBlockHead k = k) :
    (super = k ∧ p = k + 2 ^ (s.gpa k).order) ∨ (super = p ∧ k = p + 2 ^ (s.gpa k).order) := by
  have hbuddy := hf.buddy
  by_cases hs : super = k
  · rw [if_pos hs] at hbuddy
    exact .inl ⟨hs, hbuddy⟩
  · rw [if_neg hs] at hbuddy
    have hsuper := hf.super_eq
    rcases lower_or_upper (dvd_of_head hk) with hlow | hup
    · exact absurd (hsuper.trans hlow.symm) hs
    · rw [← hsuper, ← hbuddy] at hup
      exact .inr ⟨hbuddy.symm, hup⟩

theorem Found.order_super (hf : s.Found c k super p) (hk : s.empGetBlockHead k = k) :
    (s.gpa super).order = (s.gpa k).order := by
  rcases hf.halves hk with ⟨hs, -⟩ | ⟨hs, -⟩
  · rw [hs]
  · rw [hs, hf.order]

/-- The members of the merged block are those of the two. -/
theorem Found.mem_iff (hf : s.Found c k super p) (hk : s.empGetBlockHead k = k) (g : ℕ) :
    (super ≤ g ∧ g < super + 2 ^ ((s.gpa super).order + 1)) ↔ s.InBlock k g ∨ s.InBlock p g := by
  rw [InBlock, InBlock, hf.order, hf.order_super hk, pow_succ]
  have hpos := Nat.two_pow_pos (s.gpa k).order
  rcases hf.halves hk with ⟨rfl, hp⟩ | ⟨rfl, hp⟩ <;> omega

theorem Found.not_inBlock (hf : s.Found c k super p) (hk : s.empGetBlockHead k = k) :
    ¬ s.InBlock k p := by
  have hpos := Nat.two_pow_pos (s.gpa k).order
  rw [InBlock]
  rcases hf.halves hk with ⟨-, hp⟩ | ⟨-, hp⟩ <;> omega

theorem Found.head (hf : s.Found c k super p) (hk : s.empGetBlockHead k = k) :
    s.empGetBlockHead p = p := by
  rw [empGetBlockHead, hf.order]
  refine alignDown_of_dvd ?_
  have hdvd := dvd_of_head hk
  rcases hf.halves hk with ⟨-, hp⟩ | ⟨-, hp⟩
  · rw [hp]
    exact Nat.dvd_add hdvd (dvd_refl _)
  · refine (Nat.dvd_add_iff_left (dvd_refl _)).mpr ?_
    rw [← hp]
    exact hdvd

/-- The buddy is on a list of its `slru`. -/
theorem Found.on_list (hf : s.Found c k super p) (hs : s.Stretching k) :
    (s.gpa p).isLocalPageOnList = true :=
  hs.resident p (hf.not_inBlock hs.head) (hf.head hs.head) hf.active hf.mine hf.others hf.unpinned

/-- What a round makes of the state. -/
structure Round (s r : ElasticSys) (super p : ℕ) : Prop where
  places : s.SamePlaces r
  order : ∀ g, (r.gpa g).order =
    if super ≤ g ∧ g < super + 2 ^ ((s.gpa super).order + 1) then (s.gpa g).order + 1
    else (s.gpa g).order
  outside : ∀ g, ¬ (super ≤ g ∧ g < super + 2 ^ ((s.gpa super).order + 1)) →
    r.gpa g = s.gpa g ∧ r.mine g = s.mine g
  pageLen : ∀ q, r.pageLen q =
    s.pageLen q - if (s.gpa p).flags .proactive = q then (s.blockSize p : ℤ) else 0

theorem stretchRound_round {r : ElasticSys} (h : s.stretchRound c k = some (r, super, p))
    (hk : s.empGetBlockHead k = k) : s.Round r super p := by
  obtain ⟨hf, rfl⟩ := stretchRound_some h
  have hkin := (hf.mem_iff hk k).mpr (.inl inBlock_self)
  have hpin := (hf.mem_iff hk p).mpr (.inr inBlock_self)
  refine ⟨?_, fun g => ?_, fun g hg => ⟨?_, ?_⟩, fun q => ?_⟩
  · have hstart : s.SamePlaces (({ s with mine := Function.update s.mine p true } :
        ElasticSys).addPageLen ((s.gpa p).flags .proactive) (-(s.blockSize p))) :=
      ⟨rfl, rfl, rfl, rfl, rfl, fun _ => .refl _⟩
    have hend := hstart.trans (samePlaces_elsStretch _ super p)
    exact ⟨hend.numGpa, hend.sbOrder, hend.possibleCpus, hend.lists, hend.others, hend.place⟩
  · exact order_elsStretch ..
  · exact gpa_elsStretch _ _ _ hpin.1 hpin.2 hg
  · have hsec : g ≠ if k < p then p else k := by
      split <;> rintro rfl
      · exact hg hpin
      · exact hg hkin
    have hgp : g ≠ p := by
      rintro rfl
      exact hg hpin
    simp only [empUnlockBlock, mine_elsStretch, addPageLen, Function.update_of_ne hsec,
      Function.update_of_ne hgp]
  · simp only [empUnlockBlock, pageLen_elsStretch, pageLen_addPageLen]
    by_cases hq : (s.gpa p).flags .proactive = q
    · rw [if_pos hq, if_pos hq]
      rfl
    · rw [if_neg hq, if_neg hq, add_zero, sub_zero]

theorem Found.lt (hf : s.Found c k super p) (hs : s.Stretching k) : p < s.numGpa :=
  hs.listed.lt p (listOf_ne_none (hf.on_list hs))

/-- The two blocks become one. -/
theorem Found.tiled {r : ElasticSys} (hf : s.Found c k super p) (hs : s.Stretching k)
    (hr : s.Round r super p) : Tiled 0 r.numGpa fun g => (r.gpa g).order := by
  have horder := hf.order_super hs.head
  have hmem := hf.mem_iff hs.head
  obtain ⟨-, hkend, hkrun⟩ := hs.tiled.run (Nat.zero_le k) hs.lt
  obtain ⟨-, hpend, hprun⟩ := hs.tiled.run (Nat.zero_le p) (hf.lt hs)
  have hkhead : alignDown (s.gpa k).order k = k := hs.head
  have hphead : alignDown (s.gpa p).order p = p := hf.head hs.head
  simp only [hkhead, hphead] at hkend hkrun hpend hprun
  have hdvd : 2 ^ ((s.gpa super).order + 1) ∣ super := by
    rw [horder, hf.super_eq]
    exact dvd_alignDown ..
  have hold : ∀ g, super ≤ g → g < super + 2 ^ ((s.gpa super).order + 1) →
      (s.gpa g).order = (s.gpa super).order := by
    intro g hg hg'
    rcases (hmem g).mp ⟨hg, hg'⟩ with hin | hin
    · rw [hkrun g hin.1 hin.2, horder]
    · rw [hprun g hin.1 hin.2, hf.order, horder]
  have hend : super + 2 ^ ((s.gpa super).order + 1) ≤ s.numGpa := by
    have hlast := (hmem (super + 2 ^ ((s.gpa super).order + 1) - 1)).mp
    have hpos := Nat.two_pow_pos ((s.gpa super).order + 1)
    rcases hlast ⟨by omega, by omega⟩ with hin | hin
    · have := hin.2
      omega
    · have := hin.2
      omega
  rw [hr.places.numGpa]
  refine hs.tiled.replace (tiled_const (p := (s.gpa super).order) ?_ ?_ hold)
    (tiled_run hdvd fun g hg hg' => ?_) (Nat.zero_le _) hend fun g hg => ?_
  · exact (Nat.pow_dvd_pow 2 (Nat.le_succ _)).trans hdvd
  · exact (Nat.pow_dvd_pow 2 (Nat.le_succ _)).trans (Nat.dvd_add hdvd (dvd_refl _))
  · rw [hr.order, if_pos ⟨hg, hg'⟩, hold g hg hg']
  · rw [hr.order, if_neg hg]

/-- Outside the merged block, a descriptor counts for what it did. -/
theorem Round.weight {r : ElasticSys} (hr : s.Round r super p) {g : ℕ}
    (hg : ¬ (super ≤ g ∧ g < super + 2 ^ ((s.gpa super).order + 1))) (q : Bool) :
    r.weight q g = s.weight q g := by
  rw [ElasticSys.weight, ElasticSys.weight, hr.places.listOf, blockSize, blockSize,
    hr.places.sbOrder, (hr.outside g hg).1]

theorem Round.inBlock {r : ElasticSys} (hr : s.Round r super p) (g : ℕ) :
    r.InBlock super g ↔ super ≤ g ∧ g < super + 2 ^ ((s.gpa super).order + 1) := by
  have hpos := Nat.two_pow_pos ((s.gpa super).order + 1)
  rw [InBlock, hr.order super, if_pos ⟨le_rfl, by omega⟩]

/-- The counters have what is outside the merged block. -/
theorem Found.counts {r : ElasticSys} (hf : s.Found c k super p) (hs : s.Stretching k)
    (hr : s.Round r super p) (q : Bool) : r.pageLen q =
      tally r.numGpa fun g => if r.InBlock super g then 0 else r.weight q g := by
  have hmem := hf.mem_iff hs.head
  have hnot := hf.not_inBlock hs.head
  have hpin : r.InBlock super p := (hr.inBlock p).mpr ((hmem p).mpr (.inr inBlock_self))
  have hweight : s.weight q p =
      if (s.gpa p).flags .proactive = q then (s.blockSize p : ℤ) else 0 := by
    rw [ElasticSys.weight, slru_of_on_list (hf.on_list hs)]
    simp only [Option.some.injEq]
  have hrest : ∀ g < s.numGpa, g ≠ p → (if r.InBlock super g then 0 else r.weight q g) =
      if s.InBlock k g then 0 else s.weight q g := by
    intro g _ hg
    by_cases hkg : s.InBlock k g
    · rw [if_pos ((hr.inBlock g).mpr ((hmem g).mpr (.inl hkg))), if_pos hkg]
    rw [if_neg hkg]
    by_cases hpg : s.InBlock p g
    · -- the other members of the buddy are on no list
      have hnone : s.listOf g = none := by
        by_contra hlist
        exact hg (eq_of_inBlock hs.tiled (hf.lt hs) (hf.head hs.head) hpg (hs.heads g hkg hlist))
      rw [if_pos ((hr.inBlock g).mpr ((hmem g).mpr (.inr hpg))), ElasticSys.weight, hnone]
      rfl
    · have hout : ¬ (super ≤ g ∧ g < super + 2 ^ ((s.gpa super).order + 1)) := by
        rw [hmem g]
        exact not_or.mpr ⟨hkg, hpg⟩
      rw [if_neg ((hr.inBlock g).not.mpr hout), hr.weight hout]
  rw [hr.places.numGpa, hr.pageLen, hs.counts q, tally_change (hf.lt hs) hrest, if_pos hpin,
    if_neg hnot, hweight]
  ring

/-- A round keeps what holds between two rounds. -/
theorem Stretching.round {r : ElasticSys} (hs : s.Stretching k)
    (h : s.stretchRound c k = some (r, super, p)) : r.Stretching super := by
  have hr := stretchRound_round h hs.head
  obtain ⟨hf, -⟩ := stretchRound_some h
  have hmem := hf.mem_iff hs.head
  have hout : ∀ g, ¬ r.InBlock super g → ¬ s.InBlock k g ∧
      ¬ (super ≤ g ∧ g < super + 2 ^ ((s.gpa super).order + 1)) := by
    intro g hg
    rw [hr.inBlock] at hg
    exact ⟨fun hk => hg ((hmem g).mpr (.inl hk)), hg⟩
  refine ⟨hr.places.listed hs.listed, hf.tiled hs hr, ?_, ?_, ?_, hf.counts hs hr, ?_, ?_, ?_⟩
  · intro g hg hlist
    obtain ⟨hkg, hg⟩ := hout g hg
    rw [hr.places.listOf] at hlist
    rw [empGetBlockHead, (hr.outside g hg).1]
    exact hs.heads g hkg hlist
  · intro g hg hlist
    rw [hr.places.listOf] at hlist
    rw [(hr.places.place g).isLocalPageOnList]
    by_cases hkg : s.InBlock k g
    · exact hs.pinless g hkg hlist
    · have hpg : s.InBlock p g := ((hmem g).mp ((hr.inBlock g).mp hg)).resolve_left hkg
      rw [eq_of_inBlock hs.tiled (hf.lt hs) (hf.head hs.head) hpg (hs.heads g hkg hlist)]
      exact hf.on_list hs
  · intro g hg
    obtain ⟨hkg, hg⟩ := hout g hg
    rw [Resident, empGetBlockHead, (hr.outside g hg).1, (hr.outside g hg).2, hr.places.others]
    exact hs.resident g hkg
  · rw [hr.places.numGpa]
    rcases hf.halves hs.head with ⟨hsuper, -⟩ | ⟨hsuper, -⟩
    · rw [hsuper]
      exact hs.lt
    · rw [hsuper]
      exact hf.lt hs
  · have hsuper := hf.super_eq
    have hpos := Nat.two_pow_pos ((s.gpa super).order + 1)
    rw [empGetBlockHead, hr.order super, if_pos ⟨le_rfl, by omega⟩]
    refine alignDown_of_dvd ?_
    rw [hf.order_super hs.head, hsuper]
    exact dvd_alignDown ..
  · rw [ne_eq, (hr.places.place super).page]
    rcases hf.halves hs.head with ⟨hsuper, -⟩ | ⟨hsuper, -⟩
    · rw [hsuper]
      exact hs.page
    · rw [hsuper]
      intro hnone
      have hon := hf.on_list hs
      rw [ElasticGpa.isLocalPageOnList, hnone] at hon
      exact absurd hon Bool.false_ne_true

theorem Stretching.loop (hs : s.Stretching k) (n : ℕ) :
    (s.stretchLoop c k n).1.Stretching (s.stretchLoop c k n).2 := by
  induction n generalizing s k with
  | zero => exact hs
  | succ n ih =>
    rw [stretchLoop]
    cases hround : s.stretchRound c k with
    | none => exact hs
    | some x =>
      obtain ⟨r, super, p⟩ := x
      exact ih (hs.round hround)

/-- The block only grows. -/
theorem Stretching.loop_inBlock (hs : s.Stretching k) (n : ℕ) {g : ℕ} (hg : s.InBlock k g) :
    (s.stretchLoop c k n).1.InBlock (s.stretchLoop c k n).2 g := by
  induction n generalizing s k with
  | zero => exact hg
  | succ n ih =>
    rw [stretchLoop]
    cases hround : s.stretchRound c k with
    | none => exact hg
    | some x =>
      obtain ⟨r, super, p⟩ := x
      have hin := ((stretchRound_some hround).1.mem_iff hs.head g).mpr (.inl hg)
      exact ih (hs.round hround) (((stretchRound_round hround hs.head).inBlock g).mpr hin)

/-- At the largest order, the loop has ended by itself. -/
theorem Stretching.loop_succ {m n : ℕ} (hs : s.Stretching k) (hmax : ∀ g, (s.gpa g).maxOrder ≤ m)
    (hn : m ≤ (s.gpa k).order + n) : s.stretchLoop c k (n + 1) = s.stretchLoop c k n := by
  induction n generalizing s k with
  | zero =>
    have hnone : s.elsGetSuperHead k = none := if_pos ((hmax k).trans hn)
    have hround : s.stretchRound c k = none := by rw [stretchRound, hnone, Option.bind_none]
    simp only [stretchLoop, hround]
  | succ n ih =>
    rw [stretchLoop, stretchLoop]
    cases hround : s.stretchRound c k with
    | none => rfl
    | some x =>
      obtain ⟨r, super, p⟩ := x
      have horder : (r.gpa super).order = (s.gpa k).order + 1 := by
        have hpos := Nat.two_pow_pos ((s.gpa super).order + 1)
        rw [(stretchRound_round hround hs.head).order, if_pos ⟨le_rfl, by omega⟩,
          (stretchRound_some hround).1.order_super hs.head]
      refine ih (hs.round hround) (fun g => ?_) (by omega)
      obtain ⟨-, rfl⟩ := stretchRound_some hround
      exact (maxOrder_elsStretch _ super p g).trans_le (hmax g)

end Round

end ElasticSys

end Emp
