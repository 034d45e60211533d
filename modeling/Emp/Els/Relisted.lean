import Emp.Els.Merged

/-!
# The merged block goes on one list

When the head of the merged block is that of the fault, it is put on a list; when it is that of a
buddy, it is on one already.  Either way it is counted with its new size, and what was absorbed is
taken off its lists.

## Main definitions

* `ElasticSys.Put` — the head has come to a list.
* `ElasticSys.Settled` — what holds while the members are taken off their lists.
* `ElasticSys.merged_of_stretch` — the lists after a stretch.
-/

namespace Emp

/-- A descriptor that has left its list. -/
def ElasticGpa.unlisted (d : ElasticGpa) : ElasticGpa :=
  { d.setFlag .proactive false with
    localPage := d.localPage.map fun lp => { lp with on := none } }

namespace ElasticSys

variable {s t u : ElasticSys} {c : StretchCall} {h k g : ℕ} {q : Bool}

/-- The head `h` has come to a list of the `slru` of `q`, or was there, and is counted; the other
descriptors stay with their `slru`. -/
structure Put (s u : ElasticSys) (h : ℕ) (q : Bool) : Prop where
  numGpa : u.numGpa = s.numGpa
  sbOrder : u.sbOrder = s.sbOrder
  order : ∀ g, (u.gpa g).order = (s.gpa g).order
  slru : ∀ g, g ≠ h → (u.listOf g).map SlruList.proactive = (s.listOf g).map SlruList.proactive
  on_list : ∀ g, g ≠ h → (u.gpa g).isLocalPageOnList = (s.gpa g).isLocalPageOnList
  head : (u.listOf h).map SlruList.proactive = some q
  pageLen : ∀ p, u.pageLen p = s.pageLen p + if q = p then (s.blockSize h : ℤ) else 0

/-- While the absorbed members are taken off their lists, they are not counted any more. -/
structure Settled (s : ElasticSys) (h : ℕ) : Prop where
  listed : s.Listed
  head : s.listOf h ≠ none
  pinless : ∀ g, s.InBlock h g → g ≠ h → s.listOf g ≠ none →
    (s.gpa g).isLocalPageOnList = true
  counts : ∀ p, s.pageLen p =
    tally s.numGpa fun g => if s.InBlock h g ∧ g ≠ h then 0 else s.weight p g

/-! ### Adding the head -/

theorem Put.inBlock (hp : s.Put u h q) : u.InBlock h g ↔ s.InBlock h g := by
  rw [InBlock, InBlock, hp.order]

theorem Put.weight (hp : s.Put u h q) (hg : g ≠ h) (p : Bool) : u.weight p g = s.weight p g := by
  rw [ElasticSys.weight, ElasticSys.weight, hp.slru g hg, blockSize, blockSize, hp.sbOrder,
    hp.order]

theorem Stretching.settled (hs : s.Stretching h) (hp : s.Put u h q) (hl : u.Listed) :
    u.Settled h := by
  have hhead : u.listOf h ≠ none := by
    intro hnone
    have := hp.head
    rw [hnone] at this
    simp at this
  refine ⟨hl, hhead, fun g hg hne hlist => ?_, fun p => ?_⟩
  · rw [hp.on_list g hne]
    refine hs.pinless g (hp.inBlock.mp hg) fun hnone => hlist ?_
    have hslru := hp.slru g hne
    rw [hnone] at hslru
    simpa using hslru
  · have hrest : ∀ g < s.numGpa, g ≠ h →
        (if u.InBlock h g ∧ g ≠ h then 0 else u.weight p g) =
          if s.InBlock h g then 0 else s.weight p g := by
      intro g _ hg
      rw [hp.weight hg]
      by_cases hin : s.InBlock h g
      · rw [if_pos ⟨hp.inBlock.mpr hin, hg⟩, if_pos hin]
      · rw [if_neg fun hu => hin (hp.inBlock.mp hu.1), if_neg hin]
    have hweight : u.weight p h = if q = p then (s.blockSize h : ℤ) else 0 := by
      rw [ElasticSys.weight, hp.head, blockSize, blockSize, hp.sbOrder, hp.order]
      simp only [Option.some.injEq]
    rw [hp.numGpa, hp.pageLen, hs.counts p, tally_change hs.lt hrest, if_pos inBlock_self,
      hweight, if_neg (not_and_not_right.mpr fun _ => rfl)]
    ring

/-- A descriptor that was on no list goes behind the others of one. -/
theorem Listed.append {l : SlruList} (hl : s.Listed) (hk : s.listOf k = none)
    (hlt : k < s.numGpa) (hnum : u.numGpa = s.numGpa)
    (hlists : u.lists = Function.update s.lists l (s.lists l ++ [k]))
    (hlist : ∀ g, u.listOf g = if g = k then some l else s.listOf g) : u.Listed := by
  refine ⟨fun l' g => ?_, fun l' => ?_, fun g hg => ?_⟩
  · rw [hlist, hlists]
    by_cases hl' : l' = l
    · rw [hl', Function.update_self, List.mem_append, List.mem_singleton, hl.mem_iff]
      by_cases hg : g = k
      · simp [hg]
      · simp [hg]
    · rw [Function.update_of_ne hl', hl.mem_iff]
      by_cases hg : g = k
      · rw [if_pos hg, hg, hk]
        simp [Ne.symm hl']
      · rw [if_neg hg]
  · rw [hlists]
    by_cases hl' : l' = l
    · rw [hl', Function.update_self]
      exact (hl.nodup l).append (List.nodup_singleton k)
        (List.disjoint_singleton.mpr (hl.lists_eq_nil hk l))
    · rw [Function.update_of_ne hl']
      exact hl.nodup l'
  · rw [hnum]
    rw [hlist] at hg
    by_cases hgk : g = k
    · rw [hgk]
      exact hlt
    · rw [if_neg hgk] at hg
      exact hl.lt g hg

/-- Entries of one list go behind those of another. -/
theorem Listed.move {l l' : SlruList} {kept moved : List ℕ} (hl : s.Listed) (hne : l ≠ l')
    (hperm : (kept ++ moved).Perm (s.lists l)) (hnum : u.numGpa = s.numGpa)
    (hlists : u.lists = Function.update (Function.update s.lists l kept) l' (s.lists l' ++ moved))
    (hlist : ∀ g, u.listOf g = if g ∈ moved then some l' else s.listOf g) : u.Listed := by
  have hnodup : (kept ++ moved).Nodup := hperm.nodup_iff.mpr (hl.nodup l)
  have hmem : ∀ g, s.listOf g = some l ↔ g ∈ kept ∨ g ∈ moved := by
    intro g
    rw [← hl.mem_iff, ← hperm.mem_iff, List.mem_append]
  refine ⟨fun m g => ?_, fun m => ?_, fun g hg => ?_⟩
  · rw [hlist, hlists]
    by_cases hml' : m = l'
    · rw [hml', Function.update_self, List.mem_append, hl.mem_iff]
      by_cases hg : g ∈ moved
      · simp [hg]
      · simp [hg]
    rw [Function.update_of_ne hml']
    by_cases hml : m = l
    · rw [hml, Function.update_self]
      by_cases hg : g ∈ moved
      · rw [if_pos hg]
        refine iff_of_false (fun hk => ?_) (fun hk => hne (Option.some.inj hk).symm)
        exact (List.disjoint_of_nodup_append hnodup) hk hg
      · rw [if_neg hg, hmem g]
        exact ⟨.inl, fun hk => hk.resolve_right hg⟩
    · rw [Function.update_of_ne hml, hl.mem_iff]
      by_cases hg : g ∈ moved
      · rw [if_pos hg, (hmem g).mpr (.inr hg)]
        exact iff_of_false (fun hk => hml (Option.some.inj hk).symm)
          (fun hk => hml' (Option.some.inj hk).symm)
      · rw [if_neg hg]
  · rw [hlists]
    by_cases hml' : m = l'
    · rw [hml', Function.update_self]
      refine (hl.nodup l').append (List.Nodup.of_append_right hnodup) fun g hg hg' => hne ?_
      have hold := (hl.mem_iff l' g).mp hg
      rw [(hmem g).mpr (.inr hg')] at hold
      exact Option.some.inj hold
    rw [Function.update_of_ne hml']
    by_cases hml : m = l
    · rw [hml, Function.update_self]
      exact List.Nodup.of_append_left hnodup
    · rw [Function.update_of_ne hml]
      exact hl.nodup m
  · rw [hnum]
    rw [hlist] at hg
    by_cases hgm : g ∈ moved
    · refine hl.lt g ?_
      rw [(hmem g).mpr (.inr hgm)]
      exact Option.some_ne_none l
    · rw [if_neg hgm] at hg
      exact hl.lt g hg

/-- A descriptor leaves its list. -/
theorem Listed.erase {l : SlruList} (hl : s.Listed) (hk : s.listOf k = some l)
    (hnum : u.numGpa = s.numGpa)
    (hlists : u.lists = Function.update s.lists l ((s.lists l).erase k))
    (hlist : ∀ g, u.listOf g = if g = k then none else s.listOf g) : u.Listed := by
  refine ⟨fun m g => ?_, fun m => ?_, fun g hg => ?_⟩
  · rw [hlist, hlists]
    by_cases hm : m = l
    · rw [hm, Function.update_self, (hl.nodup l).mem_erase_iff, hl.mem_iff]
      by_cases hg : g = k
      · simp [hg]
      · simp [hg]
    · rw [Function.update_of_ne hm, hl.mem_iff]
      by_cases hg : g = k
      · rw [if_pos hg, hg, hk]
        simp [Ne.symm hm]
      · rw [if_neg hg]
  · rw [hlists]
    by_cases hm : m = l
    · rw [hm, Function.update_self]
      exact (hl.nodup l).erase k
    · rw [Function.update_of_ne hm]
      exact hl.nodup m
  · rw [hnum]
    rw [hlist] at hg
    by_cases hgk : g = k
    · rw [if_pos hgk] at hg
      exact absurd rfl hg
    · rw [if_neg hgk] at hg
      exact hl.lt g hg

/-! ### The flush -/

theorem list_eq_mru {d : ElasticGpa} {n cpu : ℤ} (hd : d.list n = some (.mru q cpu)) :
    ∃ lp, d.localPage = some lp ∧ lp.on = some .mru ∧ d.flags .proactive = q := by
  obtain ⟨lp, hlp, hd⟩ := Option.bind_eq_some_iff.mp hd
  obtain ⟨on, hon, hd⟩ := Option.map_eq_some_iff.mp hd
  refine ⟨lp, hlp, ?_⟩
  cases on <;> simp_all

/-- What a flush does: entries move from one list of an `slru` to another. -/
structure Flushed (s u : ElasticSys) : Prop where
  listed : u.Listed
  numGpa : u.numGpa = s.numGpa
  sbOrder : u.sbOrder = s.sbOrder
  order : ∀ g, (u.gpa g).order = (s.gpa g).order
  slru : ∀ g, (u.listOf g).map SlruList.proactive = (s.listOf g).map SlruList.proactive
  on_list : ∀ g, (u.gpa g).isLocalPageOnList = (s.gpa g).isLocalPageOnList
  pageLen : u.pageLen = s.pageLen

theorem Listed.flush (hl : s.Listed) (c : StretchCall) (q : Bool) :
    s.Flushed (s.flushActiveMru c q) := by
  obtain ⟨moved, hmoved⟩ : ∃ moved, moved = (s.lists (.mru q c.cpu)).filter fun g =>
    !(s.mine (s.empGetBlockHead g) || s.others (s.empGetBlockHead g)) := ⟨_, rfl⟩
  obtain ⟨kept, hkept⟩ : ∃ kept, kept = (s.lists (.mru q c.cpu)).filter fun g =>
    !!(s.mine (s.empGetBlockHead g) || s.others (s.empGetBlockHead g)) := ⟨_, rfl⟩
  have hperm : (kept ++ moved).Perm (s.lists (.mru q c.cpu)) := by
    rw [hkept, hmoved]
    exact List.perm_append_comm.trans (List.filter_append_perm _ _)
  have hold : ∀ g ∈ moved, s.listOf g = some (.mru q c.cpu) := by
    intro g hg
    rw [← hl.mem_iff, ← hperm.mem_iff]
    exact List.mem_append_right _ hg
  simp only [flushActiveMru, ← hmoved, ← hkept]
  split
  · have hlist : ∀ g, ElasticGpa.list (if g ∈ moved then { s.gpa g with
          localPage := (s.gpa g).localPage.map fun lp => { lp with on := some .global } }
        else s.gpa g) s.possibleCpus = if g ∈ moved then some (.global q) else s.listOf g := by
      intro g
      by_cases hg : g ∈ moved
      · obtain ⟨lp, hlp, -, hq⟩ := list_eq_mru (hold g hg)
        rw [if_pos hg, if_pos hg, ElasticGpa.list, hlp, hq]
        rfl
      · rw [if_neg hg, if_neg hg, listOf]
    refine ⟨hl.move (by simp) hperm rfl rfl hlist, rfl, rfl, fun g => ?_, fun g => ?_,
      fun g => ?_, rfl⟩
    · dsimp only
      split <;> rfl
    · refine (congrArg _ (hlist g)).trans ?_
      by_cases hg : g ∈ moved
      · rw [if_pos hg, hold g hg]
        rfl
      · rw [if_neg hg]
    · dsimp only
      by_cases hg : g ∈ moved
      · obtain ⟨lp, hlp, hon, -⟩ := list_eq_mru (hold g hg)
        rw [if_pos hg, ElasticGpa.isLocalPageOnList, ElasticGpa.isLocalPageOnList, hlp]
        simp [hon]
      · rw [if_neg hg]
  · refine ⟨⟨fun l g => ?_, fun l => ?_, hl.lt⟩, rfl, rfl, fun _ => rfl, fun _ => rfl,
      fun _ => rfl, rfl⟩
    · refine Iff.trans ?_ (hl.mem_iff l g)
      dsimp only
      by_cases hm : l = .mru q c.cpu
      · rw [hm, Function.update_self, hperm.mem_iff]
      · rw [Function.update_of_ne hm]
    · dsimp only
      by_cases hm : l = .mru q c.cpu
      · rw [hm, Function.update_self, hperm.nodup_iff]
        exact hl.nodup _
      · rw [Function.update_of_ne hm]
        exact hl.nodup l

theorem Flushed.refl (hl : s.Listed) : s.Flushed s :=
  ⟨hl, rfl, rfl, fun _ => rfl, fun _ => rfl, fun _ => rfl, rfl⟩

/-- A flush does not undo what has been put. -/
theorem Flushed.put (hf : t.Flushed u) (hp : s.Put t h q) : s.Put u h q := by
  refine ⟨hf.numGpa.trans hp.numGpa, hf.sbOrder.trans hp.sbOrder, fun g => ?_, fun g hg => ?_,
    fun g hg => ?_, ?_, fun p => ?_⟩
  · rw [hf.order, hp.order]
  · rw [hf.slru, hp.slru g hg]
  · rw [hf.on_list, hp.on_list g hg]
  · rw [hf.slru, hp.head]
  · rw [hf.pageLen, hp.pageLen]

/-! ### The head is put on a list -/

theorem list_setOn_mru {d : ElasticGpa} (hd : d.localPage ≠ none) (cpu n : ℤ) :
    (d.setOn cpu (some .mru)).list n = some (.mru (d.flags .proactive) cpu) := by
  obtain ⟨lp, hlp⟩ := Option.ne_none_iff_exists'.mp hd
  rw [ElasticGpa.setOn, ElasticGpa.list, hlp]
  rfl

theorem list_setOn_pin {d : ElasticGpa} (hd : d.localPage ≠ none) (cpu n : ℤ) :
    (d.setOn cpu (some .pin)).list n = some (.pin (n + cpu)) := by
  obtain ⟨lp, hlp⟩ := Option.ne_none_iff_exists'.mp hd
  rw [ElasticGpa.setOn, ElasticGpa.list, hlp]
  rfl

/-- One descriptor is written and appended to a list. -/
def appended (s : ElasticSys) (k : ℕ) (d : ElasticGpa) (l : SlruList) : ElasticSys :=
  { s.setGpa k d with lists := Function.update s.lists l (s.lists l ++ [k]) }

theorem appended_listOf {d : ElasticGpa} {l : SlruList} (hd : d.list s.possibleCpus = some l)
    (g : ℕ) : (s.appended k d l).listOf g = if g = k then some l else s.listOf g := by
  by_cases hg : g = k
  · rw [if_pos hg, hg, listOf, appended, ← hd]
    simp [setGpa]
  · rw [if_neg hg, listOf, listOf, appended]
    simp only [setGpa, Function.update_of_ne hg]

/-- What adding the head comes to, but for the flush. -/
theorem put_appended {d : ElasticGpa} {l : SlruList} (hd : d.list s.possibleCpus = some l)
    (horder : d.order = (s.gpa k).order) :
    s.Put ((s.appended k d l).addPageLen l.proactive (s.blockSize k)) k l.proactive := by
  have hlist := appended_listOf hd (k := k)
  refine ⟨rfl, rfl, fun g => ?_, fun g hg => ?_, fun g hg => ?_, ?_, fun p =>
    pageLen_addPageLen ..⟩
  · simp only [addPageLen, appended, setGpa]
    by_cases hg : g = k
    · rw [hg, Function.update_self, horder]
    · rw [Function.update_of_ne hg]
  · refine (congrArg _ (hlist g)).trans ?_
    rw [if_neg hg]
  · simp only [addPageLen, appended, setGpa, Function.update_of_ne hg]
  · refine (congrArg _ (hlist k)).trans ?_
    rw [if_pos rfl]
    rfl

theorem addPageLen_flushActiveMru (q p : Bool) (n : ℤ) :
    (s.flushActiveMru c q).addPageLen p n = (s.addPageLen p n).flushActiveMru c q := by
  simp only [flushActiveMru]
  split
  · rw [if_pos ‹_›]
    rfl
  · rw [if_neg ‹_›]
    rfl

/-- The state of a head that is added: one that is being fetched stays as it is. -/
def activated (s : ElasticSys) (k : ℕ) : ElasticGpa :=
  if (s.gpa k).rState = .fetching then s.gpa k else { s.gpa k with rState := .active }

theorem activated_eq : (s.activated k).flags = (s.gpa k).flags ∧
    (s.activated k).order = (s.gpa k).order ∧ (s.activated k).localPage = (s.gpa k).localPage := by
  rw [activated]
  split <;> exact ⟨rfl, rfl, rfl⟩

theorem addGpasToActiveList_pinned (hpin : (s.gpa k).flags .pinned = true) :
    s.addGpasToActiveList c k q = { (s.appended k
        (((s.activated k).setFlag .proactive true).setOn c.cpu (some .pin))
          (.pin (s.possibleCpus + c.cpu))).addPageLen true (s.blockSize k) with
      curPinPages := s.curPinPages + s.blockSize k } := by
  rw [addGpasToActiveList]
  exact if_pos hpin

/-- The head behind the others of the list of the cpu. -/
def queued (s : ElasticSys) (c : StretchCall) (k : ℕ) (q : Bool) : ElasticSys :=
  s.appended k ((if q then (s.activated k).setFlag .proactive true else s.activated k).setOn c.cpu
    (some .mru)) (.mru q c.cpu)

theorem addGpasToActiveList_unpinned (hpin : (s.gpa k).flags .pinned = false) :
    s.addGpasToActiveList c k q = (if 64 ≤ ((s.queued c k q).lists (.mru q c.cpu)).length then
      (s.queued c k q).flushActiveMru c q else s.queued c k q).addPageLen q (s.blockSize k) := by
  rw [addGpasToActiveList]
  exact if_neg (Bool.eq_false_iff.mp hpin)

/-- `add_gpas_to_active_list` puts a head that was on no list on one, and counts it. -/
theorem put_addGpasToActiveList (hl : s.Listed) (hlt : k < s.numGpa)
    (hpage : (s.gpa k).localPage ≠ none) (hnone : s.listOf k = none)
    (hq : (s.gpa k).flags .proactive = q) :
    (s.addGpasToActiveList c k q).Listed ∧ ∃ q', s.Put (s.addGpasToActiveList c k q) k q' := by
  obtain ⟨hflags, horder, hlp⟩ := activated_eq (s := s) (k := k)
  rw [← hlp] at hpage
  have hpage' : ((s.activated k).setFlag .proactive true).localPage ≠ none := hpage
  cases hpin : (s.gpa k).flags .pinned with
  | true =>
    rw [addGpasToActiveList_pinned hpin]
    have hd : (((s.activated k).setFlag .proactive true).setOn c.cpu (some .pin)).list
        s.possibleCpus = some (.pin (s.possibleCpus + c.cpu)) := list_setOn_pin hpage' ..
    have hput := put_appended hd horder
    have hlisted : (s.appended k _ _).Listed :=
      hl.append hnone hlt rfl rfl (appended_listOf hd)
    exact ⟨⟨hlisted.mem_iff, hlisted.nodup, hlisted.lt⟩, true, ⟨hput.numGpa, hput.sbOrder,
      hput.order, hput.slru, hput.on_list, hput.head, hput.pageLen⟩⟩
  | false =>
    rw [addGpasToActiveList_unpinned hpin]
    have hd : ((if q then (s.activated k).setFlag .proactive true else s.activated k).setOn c.cpu
        (some .mru)).list s.possibleCpus = some (.mru q c.cpu) := by
      by_cases hq' : q = true
      · rw [if_pos hq', list_setOn_mru hpage', hq']
        simp [ElasticGpa.setFlag]
      · rw [if_neg hq', list_setOn_mru hpage, hflags, hq]
    have horder' : ((if q then (s.activated k).setFlag .proactive true else
        s.activated k).setOn c.cpu (some .mru)).order = (s.gpa k).order := by
      rw [← horder]
      split <;> rfl
    have hput : s.Put ((s.queued c k q).addPageLen q (s.blockSize k)) k q :=
      put_appended hd horder'
    have hlisted : (s.queued c k q).Listed := hl.append hnone hlt rfl rfl (appended_listOf hd)
    have hcounted : ((s.queued c k q).addPageLen q (s.blockSize k)).Listed :=
      ⟨hlisted.mem_iff, hlisted.nodup, hlisted.lt⟩
    split
    · rw [addPageLen_flushActiveMru]
      exact ⟨(hcounted.flush c q).listed, q, (hcounted.flush c q).put hput⟩
    · exact ⟨hcounted, q, hput⟩

/-! ### The absorbed members leave their lists -/

/-- The descriptors of `l` have left their lists. -/
structure Removed (s u : ElasticSys) (l : List ℕ) : Prop where
  listed : u.Listed
  numGpa : u.numGpa = s.numGpa
  sbOrder : u.sbOrder = s.sbOrder
  possibleCpus : u.possibleCpus = s.possibleCpus
  pageLen : u.pageLen = s.pageLen
  order : ∀ g, (u.gpa g).order = (s.gpa g).order
  gone : ∀ g ∈ l, u.listOf g = none
  rest : ∀ g, g ∉ l → u.gpa g = s.gpa g

theorem removeFromList_eq {l : SlruList} (hon : (s.gpa k).isLocalPageOnList = true)
    (hk : s.listOf k = some l) : s.removeFromList k =
      { s.setGpa k (s.gpa k).unlisted with
        lists := Function.update s.lists l ((s.lists l).erase k) } := by
  rw [listOf] at hk
  rw [removeFromList, if_pos hon, hk]
  rfl

theorem Listed.removed (hl : s.Listed)
    (hon : s.listOf k ≠ none → (s.gpa k).isLocalPageOnList = true) :
    s.Removed (s.removeFromList k) [k] := by
  by_cases hlist : (s.gpa k).isLocalPageOnList = true
  · obtain ⟨l, hk⟩ := Option.ne_none_iff_exists'.mp (listOf_ne_none hlist)
    rw [removeFromList_eq hlist hk]
    have hgpa : ∀ g, g ≠ k → (s.setGpa k (s.gpa k).unlisted).gpa g = s.gpa g := fun g hg =>
      setGpa_of_ne _ hg
    have hnone : (s.setGpa k (s.gpa k).unlisted).listOf k = none := by
      rw [listOf, setGpa_self, ElasticGpa.list, ElasticGpa.unlisted]
      cases (s.gpa k).localPage <;> rfl
    refine ⟨hl.erase hk rfl rfl fun g => ?_, rfl, rfl, rfl, rfl, fun g => ?_, fun g hg => ?_,
      fun g hg => hgpa g (by simpa using hg)⟩
    · by_cases hg : g = k
      · rw [if_pos hg, hg]
        exact hnone
      · rw [if_neg hg]
        exact congrArg (fun d => ElasticGpa.list d s.possibleCpus) (hgpa g hg)
    · by_cases hg : g = k
      · rw [hg]
        exact (congrArg ElasticGpa.order (setGpa_self s k (s.gpa k).unlisted)).trans rfl
      · exact congrArg ElasticGpa.order (hgpa g hg)
    · rw [List.mem_singleton.mp hg]
      exact hnone
  · rw [removeFromList, if_neg hlist]
    refine ⟨hl, rfl, rfl, rfl, rfl, fun _ => rfl, fun g hg => ?_, fun _ _ => rfl⟩
    rw [List.mem_singleton.mp hg]
    exact not_not.mp fun hne => hlist (hon hne)

theorem Listed.removedAll {l : List ℕ} (hl : s.Listed)
    (hon : ∀ g ∈ l, s.listOf g ≠ none → (s.gpa g).isLocalPageOnList = true) :
    s.Removed (l.foldl removeFromList s) l := by
  induction l generalizing s with
  | nil => exact ⟨hl, rfl, rfl, rfl, rfl, fun _ => rfl, by simp, fun _ _ => rfl⟩
  | cons k rest ih =>
    have hfst := hl.removed (hon k (List.mem_cons_self ..))
    have hkeep : ∀ g, g ≠ k → (s.removeFromList k).listOf g = s.listOf g := by
      intro g hg
      rw [listOf, listOf, hfst.possibleCpus, hfst.rest g (by simpa using hg)]
    have hsnd := ih hfst.listed fun g hg hlist => by
      by_cases hgk : g = k
      · rw [hgk] at hlist
        exact absurd (hfst.gone k (List.mem_singleton_self k)) hlist
      · rw [hfst.rest g (by simpa using hgk)]
        refine hon g (List.mem_cons_of_mem _ hg) ?_
        rw [← hkeep g hgk]
        exact hlist
    refine ⟨hsnd.listed, hsnd.numGpa.trans hfst.numGpa, hsnd.sbOrder.trans hfst.sbOrder,
      hsnd.possibleCpus.trans hfst.possibleCpus, hsnd.pageLen.trans hfst.pageLen, fun g => ?_,
      fun g hg => ?_, fun g hg => ?_⟩
    · rw [List.foldl_cons, hsnd.order, hfst.order]
    · rw [List.foldl_cons]
      by_cases hrest : g ∈ rest
      · exact hsnd.gone g hrest
      · have hgk : g = k := (List.mem_cons.mp hg).resolve_right hrest
        rw [listOf, hsnd.rest g hrest, hsnd.possibleCpus, ← listOf, hgk]
        exact hfst.gone k (List.mem_singleton_self k)
    · rw [List.mem_cons, not_or] at hg
      rw [List.foldl_cons, hsnd.rest g hg.2, hfst.rest g (by simpa using hg.1)]

/-! ### The whole -/

/-- The members that `remove_from_list_except_for_head` visits. -/
theorem mem_members :
    g ∈ List.range' (h + 1) (2 ^ (s.gpa h).order - 1) ↔ s.InBlock h g ∧ g ≠ h := by
  have hpos := Nat.two_pow_pos (s.gpa h).order
  rw [List.mem_range'_1, InBlock]
  omega

theorem Settled.removed (hs : s.Settled h) : s.Removed (s.removeFromListExceptForHead h)
    (List.range' (h + 1) (2 ^ (s.gpa h).order - 1)) :=
  hs.listed.removedAll fun g hg hlist =>
    hs.pinless g (mem_members.mp hg).1 (mem_members.mp hg).2 hlist

/-- Taking the absorbed members off their lists leaves what a stretch is to leave. -/
theorem Settled.merged (hs : s.Settled h) : (s.removeFromListExceptForHead h).Merged h := by
  have hr := hs.removed
  obtain ⟨u, hu⟩ : ∃ u, u = s.removeFromListExceptForHead h := ⟨_, rfl⟩
  rw [← hu] at hr ⊢
  have hin : ∀ g, u.InBlock h g ↔ s.InBlock h g := by
    intro g
    rw [InBlock, InBlock, hr.order]
  have hkeep : ∀ g, ¬ (s.InBlock h g ∧ g ≠ h) → u.listOf g = s.listOf g := by
    intro g hg
    rw [listOf, listOf, hr.possibleCpus, hr.rest g fun hgl => hg (mem_members.mp hgl)]
  have hself : ¬ (s.InBlock h h ∧ h ≠ h) := not_and_not_right.mpr fun _ => rfl
  refine ⟨hr.listed, ?_, fun g hg hne l => ?_, fun p => ?_⟩
  · obtain ⟨l, hl⟩ := Option.ne_none_iff_exists'.mp hs.head
    rw [← hkeep h hself] at hl
    refine ⟨l, fun l' => ?_⟩
    by_cases hll : l' = l
    · rw [if_pos hll, hll]
      exact List.count_eq_one_of_mem (hr.listed.nodup l) ((hr.listed.mem_iff l h).mpr hl)
    · rw [if_neg hll, List.count_eq_zero, hr.listed.mem_iff, hl]
      exact fun heq => hll (Option.some.inj heq).symm
  · exact hr.listed.lists_eq_nil (hr.gone g (mem_members.mpr ⟨(hin g).mp hg, hne⟩)) l
  · rw [hr.pageLen, hs.counts p, pages, hr.numGpa]
    refine (tally_congr fun g _ => ?_).symm
    by_cases hg : s.InBlock h g ∧ g ≠ h
    · rw [if_pos hg, weight, hr.gone g (mem_members.mpr hg)]
      rfl
    · rw [if_neg hg, weight, weight, hkeep g hg, blockSize, blockSize, hr.sbOrder, hr.order]

/-- `GPA_STRETCHED` and `GPA_PREFETCH_ONCE` are set. -/
def flagged (s : ElasticSys) (h : ℕ) : ElasticSys :=
  s.setGpa h (((s.gpa h).setFlag .stretched true).setFlag .prefetchOnce true)

theorem samePlaces_flagged : s.SamePlaces (s.flagged h) :=
  .setGpa (.trans (samePlace_setFlag (by simp)) (samePlace_setFlag (by simp)))

theorem order_flagged (g : ℕ) : ((s.flagged h).gpa g).order = (s.gpa g).order := by
  rw [flagged]
  by_cases hg : g = h
  · rw [hg, setGpa_self]
    rfl
  · rw [setGpa_of_ne _ hg]

theorem Stretching.flagged (hs : s.Stretching h) : (s.flagged h).Stretching h := by
  have hplaces := samePlaces_flagged (s := s) (h := h)
  have horder := order_flagged (s := s) (h := h)
  have hin : ∀ g, (s.flagged h).InBlock h g ↔ s.InBlock h g := by
    intro g
    rw [InBlock, InBlock, horder]
  have hhead : ∀ g, (s.flagged h).empGetBlockHead g = s.empGetBlockHead g := by
    intro g
    rw [empGetBlockHead, empGetBlockHead, horder]
  refine ⟨hplaces.listed hs.listed, ?_, fun g hg hlist => ?_, fun g hg hlist => ?_,
    fun g hg => ?_, fun p => ?_, hs.lt, ?_, ?_⟩
  · exact hs.tiled.congr fun g _ _ => horder g
  · rw [hhead]
    rw [hin] at hg
    rw [hplaces.listOf] at hlist
    exact hs.heads g hg hlist
  · rw [hin] at hg
    rw [hplaces.listOf] at hlist
    rw [(hplaces.place g).isLocalPageOnList]
    exact hs.pinless g hg hlist
  · rw [hin] at hg
    have hgh : g ≠ h := by
      rintro rfl
      exact hg inBlock_self
    rw [Resident, hhead, ElasticSys.flagged, setGpa_of_ne _ hgh]
    exact hs.resident g hg
  · refine (hs.counts p).trans (tally_congr fun g _ => ?_).symm
    rw [weight, weight, hplaces.listOf, blockSize, blockSize, hplaces.sbOrder, horder]
    exact if_congr (hin g) rfl rfl
  · rw [hhead]
    exact hs.head
  · rw [ne_eq, (hplaces.place h).page]
    exact hs.page

/-- What happens to the head before the members leave their lists. -/
def counted (s : ElasticSys) (c : StretchCall) (h : ℕ) : ElasticSys :=
  if ((s.flagged h).gpa h).isLocalPageOnList then
    (s.flagged h).addPageLen (((s.flagged h).gpa h).flags .proactive) ((s.flagged h).blockSize h)
  else (s.flagged h).addGpasToActiveList c h (((s.flagged h).gpa h).flags .proactive)

theorem putStretched_eq :
    s.putStretched c h = (s.counted c h).removeFromListExceptForHead h := rfl

theorem Stretching.put (hs : s.Stretching h) :
    (s.counted c h).Listed ∧ ∃ q, (s.flagged h).Put (s.counted c h) h q := by
  have hs := hs.flagged
  rw [counted]
  by_cases hon : ((s.flagged h).gpa h).isLocalPageOnList = true
  · rw [if_pos hon]
    refine ⟨⟨hs.listed.mem_iff, hs.listed.nodup, hs.listed.lt⟩, _, rfl, rfl, fun _ => rfl,
      fun _ _ => rfl, fun _ _ => rfl, slru_of_on_list hon, fun p => ?_⟩
    exact pageLen_addPageLen ..
  · rw [if_neg hon]
    have hnone : (s.flagged h).listOf h = none :=
      not_not.mp fun hne => hon (hs.pinless h inBlock_self hne)
    exact put_addGpasToActiveList hs.listed hs.lt hs.page hnone rfl

theorem Stretching.merged (hs : s.Stretching h) : (s.putStretched c h).Merged h := by
  obtain ⟨hl, q, hput⟩ := hs.put (c := c)
  rw [putStretched_eq]
  exact (hs.flagged.settled hput hl).merged

/-- After the loop, no order changes any more. -/
theorem Stretching.order_putStretched (hs : s.Stretching h) (g : ℕ) :
    ((s.putStretched c h).gpa g).order = (s.gpa g).order := by
  obtain ⟨hl, q, hput⟩ := hs.put (c := c)
  have hsettled := hs.flagged.settled hput hl
  rw [putStretched_eq, hsettled.removed.order, hput.order, order_flagged]

/-- The head of the merged block is found from every member. -/
theorem Stretching.empGetBlockHead (hs : s.Stretching h) (hg : s.InBlock h g) :
    s.empGetBlockHead g = h := by
  have hdiv := (div_eq_iff_of_dvd (dvd_of_head hs.head)).mpr hg
  have hord : (s.gpa g).order = (s.gpa h).order :=
    (hs.tiled h (Nat.zero_le h) hs.lt g hdiv).2.2
  rw [ElasticSys.empGetBlockHead, hord, alignDown_congr hdiv]
  exact hs.head

theorem Ready.stretching (hr : s.Ready k) (hpage : (s.gpa k).localPage ≠ none) :
    s.Stretching k := by
  have hnone : ∀ g, s.InBlock k g → s.listOf g = none := by
    intro g hg
    by_contra hlist
    have hgk := eq_of_inBlock hr.tiled hr.lt hr.head hg (hr.heads g hlist)
    rw [hgk] at hlist
    exact hlist hr.unlisted
  refine ⟨hr.listed, hr.tiled, fun g _ => hr.heads g, fun g hg hlist => ?_,
    fun g _ => hr.resident g, fun p => ?_, hr.lt, hr.head, hpage⟩
  · exact absurd (hnone g hg) hlist
  · refine (hr.counts p).trans (tally_congr fun g _ => ?_).symm
    by_cases hg : s.InBlock k g
    · rw [if_pos hg, weight, hnone g hg]
      rfl
    · rw [if_neg hg]

/-- A stretch that succeeds is its rounds and what follows them. -/
theorem elsStretchRep_true (h : s.elsStretchRep c k = (true, t)) :
    (s.gpa k).localPage ≠ none ∧ ∃ n, (c.aggressiveness = 1 → n = 1) ∧
      ((s.stretchLoop c.faulted k n).1.gpa (s.stretchLoop c.faulted k n).2).order ≠
        (s.gpa k).order ∧
      t = (s.stretchLoop c.faulted k n).1.putStretched c (s.stretchLoop c.faulted k n).2 := by
  obtain ⟨n, hn⟩ : ∃ n, n = if c.aggressiveness = 0 then blockMaxOrder else c.aggressiveness :=
    ⟨_, rfl⟩
  simp only [elsStretchRep, ← hn] at h
  split_ifs at h with hoff hflags howner horder
  · exact absurd (Prod.mk.inj h).1 Bool.false_ne_true
  · exact absurd (Prod.mk.inj h).1 Bool.false_ne_true
  · exact absurd (Prod.mk.inj h).1 Bool.false_ne_true
  · exact absurd (Prod.mk.inj h).1 Bool.false_ne_true
  · refine ⟨fun hnone => howner ?_, n, fun hone => ?_, horder, (Prod.mk.inj h).2.symm⟩
    · rw [hnone]
      rfl
    · rw [hn, hone]
      rfl

/-- **The lists after a stretch.**  Whatever the two blocks were, the head of the merged block is
on one list, what was absorbed on none, and the counters are the sums of the block sizes. -/
theorem merged_of_stretch (hr : s.Ready k) (h : s.elsStretchRep c k = (true, t)) :
    t.Merged (t.empGetBlockHead k) := by
  obtain ⟨hpage, n, -, -, rfl⟩ := elsStretchRep_true h
  have hs := (hr.stretching hpage).loop (c := c.faulted) n
  have hin := (hr.stretching hpage).loop_inBlock (c := c.faulted) n inBlock_self
  rw [ElasticSys.empGetBlockHead, hs.order_putStretched, ← ElasticSys.empGetBlockHead,
    hs.empGetBlockHead hin]
  exact hs.merged

end ElasticSys

end Emp
