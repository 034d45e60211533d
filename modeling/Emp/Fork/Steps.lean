import Emp.Fork.Close
import Emp.Fork.Walk

/-!
# What every operation on shared descriptors keeps

The directories that no fork is filling have whole groups, a fork fills a directory from one that
stands still, and every vmdesc counts its vmrs.

## Main definitions

* `ForkSys.Walking`, `ForkSys.Views` — a fork that has not ended, and the vmrs of a vmdesc.
* `ForkSys.Inv` — the invariant, and `ForkSys.inv_of_step`.
-/

namespace Emp

namespace ForkSys

variable {s s' : ForkSys} {c d e i n : ℕ} {x pos : Slot} {g : Group} {t : ForkTask}

/-- The fork fills the directory from that of a vmdesc that stands still. -/
structure Walking (s : ForkSys) (c : ℕ) (t : ForkTask) : Prop where
  ne : t.parent ≠ c
  lt : c < s.numDescs
  parent : t.parent < s.numDescs
  idle : s.task t.parent = none
  fills : Fills s.backing (s.gpaDir t.parent) (s.gpaDir c) (s.vmrs c) t

/-- The vmrs of a vmdesc view its backing and hold its reference count, and without them there are
no slots. -/
structure Views (s : ForkSys) (d : ℕ) : Prop where
  base : (s.desc d).vmBase = s.backing.vmBase
  refcount : (s.desc d).refcount = (s.vmrs d).length
  inside : ∀ v ∈ s.vmrs d, VmdescDir.Inside s.backing v
  empty : s.vmrs d = [] → ∀ i, s.gpaDir d i = none

structure Inv (s : ForkSys) : Prop where
  sound : s.Sound
  whole : ∀ d, s.task d = none → s.Whole d
  walking : ∀ c t, s.task c = some t → s.Walking c t
  views : ∀ d < s.numDescs, s.Views d
  beyond : ∀ d, s.numDescs ≤ d → s.vmrs d = []

/-! ### One vmdesc changes -/

theorem busy_eq_false (h : s.Inv) :
    s.busy d = false ↔ s.task d = none ∧ ∀ c t, s.task c = some t → t.parent ≠ d := by
  rw [busy, List.any_eq_false]
  constructor
  · intro hbusy
    have hnot : ∀ c t, s.task c = some t → c ≠ d ∧ t.parent ≠ d := by
      intro c t ht
      have hc := hbusy c (List.mem_range.mpr (h.walking c t ht).lt)
      simp only [ht, Bool.or_eq_true, beq_iff_eq, not_or] at hc
      exact hc
    refine ⟨?_, fun c t ht => (hnot c t ht).2⟩
    cases ht : s.task d with
    | none => rfl
    | some t => exact absurd rfl (hnot d t ht).1
  · rintro ⟨hidle, hparent⟩ c -
    cases ht : s.task c with
    | none => simp
    | some t =>
        have hne : c ≠ d := by
          rintro rfl
          rw [hidle] at ht
          cases ht
        simp [hne, hparent c t ht]

/-- The slots and their counts do not depend on the vmrs, the forks and what has been freed. -/
theorem Sound.relabel (h : s.Sound) {wprotect : Slot → Bool} {frees : ℕ → ℕ} {strayFrees : ℕ}
    {desc : ℕ → Vmdesc} {vmrs : ℕ → List Vmr} {task : ℕ → Option ForkTask} :
    ({ s with
        wprotect := wprotect, frees := frees, strayFrees := strayFrees, desc := desc, vmrs := vmrs
        task := task }).Sound :=
  ⟨h.valid, h.pos, h.root, h.member, h.slot, h.counted, h.fresh, h.nullRemoved⟩

/-- Only the vmdesc `d` changes. -/
structure Only (s s' : ForkSys) (d : ℕ) : Prop where
  backing : s'.backing = s.backing
  numDescs : s'.numDescs = s.numDescs
  gpaDir : ∀ e, e ≠ d → s'.gpaDir e = s.gpaDir e
  desc : ∀ e, e ≠ d → s'.desc e = s.desc e
  vmrs : ∀ e, e ≠ d → s'.vmrs e = s.vmrs e
  task : ∀ e, e ≠ d → s'.task e = s.task e

/-- The other vmdescs, and the forks that do not read from `d`. -/
theorem inv_of_only (h : s.Inv) (hd : d < s.numDescs) (ho : s.Only s' d)
    (hparent : ∀ c t, s.task c = some t → t.parent ≠ d) (hsound : s'.Sound) (hkeeps : s.Keeps s')
    (hwhole : s'.task d = none → s'.Whole d) (hwalk : ∀ t, s'.task d = some t → s'.Walking d t)
    (hviews : s'.Views d) : s'.Inv := by
  refine ⟨hsound, fun e he => ?_, fun c t ht => ?_, fun e he => ?_, fun e he => ?_⟩
  · by_cases hed : e = d
    · exact hed ▸ hwhole (hed ▸ he)
    · rw [ho.task e hed] at he
      exact whole_of_other h.sound (h.whole e he) (ho.gpaDir e hed) hkeeps
  · by_cases hcd : c = d
    · exact hcd ▸ hwalk t (hcd ▸ ht)
    · rw [ho.task c hcd] at ht
      have hp := hparent c t ht
      obtain ⟨hne, hlt, hplt, hidle, hfills⟩ := h.walking c t ht
      refine ⟨hne, ho.numDescs ▸ hlt, ho.numDescs ▸ hplt, (ho.task _ hp).trans hidle, ?_⟩
      rw [ho.backing, ho.gpaDir _ hp, ho.gpaDir c hcd, ho.vmrs c hcd]
      exact hfills
  · by_cases hed : e = d
    · exact hed ▸ hviews
    · obtain ⟨hbase, href, hinside, hempty⟩ := h.views e (ho.numDescs ▸ he)
      exact ⟨by rw [ho.desc e hed, ho.backing, hbase], by rw [ho.desc e hed, ho.vmrs e hed, href],
        by rwa [ho.vmrs e hed, ho.backing], by rwa [ho.vmrs e hed, ho.gpaDir e hed]⟩
  · rw [ho.numDescs] at he
    rw [ho.vmrs e (by omega)]
    exact h.beyond e he

/-- An operation on a vmdesc that no fork fills or reads from. -/
theorem inv_of_idle (h : s.Inv) (hbusy : s.busy d = false) (hd : d < s.numDescs) (ho : s.Only s' d)
    (htask : s'.task d = s.task d) (hsound : s'.Sound) (hkeeps : s.Keeps s') (hwhole : s'.Whole d)
    (hviews : s'.Views d) : s'.Inv := by
  obtain ⟨hidle, hparent⟩ := (busy_eq_false h).mp hbusy
  refine inv_of_only h hd ho hparent hsound hkeeps (fun _ => hwhole) (fun t ht => ?_) hviews
  rw [htask, hidle] at ht
  cases ht

/-- The vmrs stay, so the directory need not be empty. -/
theorem Views.of_vmrs (h : s.Views d) (hb : s'.backing = s.backing) (hdesc : s'.desc d = s.desc d)
    (hvmrs : s'.vmrs d = s.vmrs d) (hempty : s.vmrs d = [] → ∀ i, s'.gpaDir d i = none) : s'.Views d :=
  ⟨by rw [hdesc, hb, h.base], by rw [hdesc, hvmrs, h.refcount], by rw [hvmrs, hb]; exact h.inside,
    by rwa [hvmrs]⟩

theorem lt_of_vmrs (h : s.Inv) (hv : s.vmrs d ≠ []) : d < s.numDescs := by
  by_contra hno
  exact hv (h.beyond d (not_lt.mp hno))

/-- A directory with slots is that of a vmdesc with vmrs. -/
theorem vmrs_ne_of_slot (h : s.Inv) (hx : s.gpaDir d i = some x) : s.vmrs d ≠ [] := by
  intro hnil
  rw [(h.views d (h.sound.slot d i x hx).1).empty hnil i] at hx
  cases hx

/-! ### First touches, splits and blocks -/

/-- A first touch. -/
theorem inv_getGpadesc {idx : ℕ} {alloc : Option (ℕ × ℕ)} (h : s.Inv) (hbusy : s.busy d = false)
    (hne : s.vmrs d ≠ []) (havail : (s.dirAt d).available idx alloc) :
    (s.getGpadesc d idx alloc).Inv ∧ s.Keeps (s.getGpadesc d idx alloc) := by
  have hd := lt_of_vmrs h hne
  have hw := h.whole d ((busy_eq_false h).mp hbusy).1
  obtain ⟨hsound, hwhole, hkeeps⟩ := sound_populate h.sound hd hw havail (Directory.Reordered.refl _)
    (Directory.kept_getGpadesc (h.sound.dirInv hw) havail).1.inv
  refine ⟨inv_of_idle h hbusy hd ⟨rfl, rfl, fun e he => Function.update_of_ne he .., fun _ _ => rfl,
    fun _ _ => rfl, fun _ _ => rfl⟩ rfl hsound hkeeps hwhole ?_, hkeeps⟩
  exact (h.views d hd).of_vmrs rfl rfl rfl fun hnil => absurd hnil hne

/-- An operation on a block, also of a vmdesc that a fork reads from. -/
theorem inv_els {id : ℕ} {g' : Group} {e : ElsEvent} (h : s.Inv) (hg : s.group id = some g)
    (hs : g.step e = some g') : ({ s with group := Function.update s.group id (some g') }).Inv ∧
      s.Keeps { s with group := Function.update s.group id (some g') } := by
  obtain ⟨hsound, hkeeps⟩ := sound_els h.sound hg hs
  refine ⟨⟨hsound, fun d hd => whole_of_other h.sound (h.whole d hd) rfl hkeeps, fun c t ht => ?_,
    fun d hd => ?_, h.beyond⟩, hkeeps⟩
  · obtain ⟨hne, hlt, hplt, hidle, hfills⟩ := h.walking c t ht
    exact ⟨hne, hlt, hplt, hidle, hfills⟩
  · obtain ⟨hbase, href, hinside, hempty⟩ := h.views d hd
    exact ⟨hbase, href, hinside, hempty⟩

/-- A further vmr. -/
theorem inv_attach {v : Vmr} {alloc : Bool} (h : s.Inv) (hbusy : s.busy d = false)
    (hv : ∃ w ∈ s.vmrs d, w.vmStart = v.vmStart ∧ w.vmEnd = v.vmEnd) :
    ({ s with
        desc := Function.update s.desc d ((s.desc d).get.addView v true alloc)
        vmrs := Function.update s.vmrs d (v :: s.vmrs d) }).Inv := by
  obtain ⟨w, hw, hstart, hend⟩ := hv
  have hd := lt_of_vmrs h (List.ne_nil_of_mem hw)
  obtain ⟨hbase, href, hinside, -⟩ := h.views d hd
  have hs := h.sound
  refine inv_of_idle h hbusy hd ⟨rfl, rfl, fun _ _ => rfl, fun e he => Function.update_of_ne he ..,
    fun e he => Function.update_of_ne he .., fun _ _ => rfl⟩ rfl
    hs.relabel
    (fun id g hg => ⟨g, hg, rfl, rfl, rfl⟩) (h.whole d ((busy_eq_false h).mp hbusy).1) ?_
  refine ⟨?_, ?_, ?_, ?_⟩ <;> simp only [Function.update_self]
  · exact hbase
  · simp only [Vmdesc.addView, Vmdesc.get, List.length_cons, href]
  · intro u hu
    rcases List.mem_cons.mp hu with rfl | hu
    · have hin := hinside w hw
      rwa [VmdescDir.Inside, hstart, hend] at hin
    · exact hinside u hu
  · exact fun hnil => by cases hnil

/-- The split of a vma. -/
theorem inv_splitVmdesc {v : Vmr} {addr : ℕ} {newIsFront : Bool} {alloc : Option (ℕ × ℕ)} {mem : Memory}
    (h : s.Inv) (hbusy : s.busy d = false) (hv : v ∈ s.vmrs d) (hstart : v.vmStart < addr)
    (hend : addr < v.vmEnd) (havail : (s.dirAt d).available (s.backing.indexOf addr) alloc) :
    (s.splitVmdesc d v addr newIsFront alloc mem).Inv ∧
      s.Keeps (s.splitVmdesc d v addr newIsFront alloc mem) := by
  have hd := lt_of_vmrs h (List.ne_nil_of_mem hv)
  have hw := h.whole d ((busy_eq_false h).mp hbusy).1
  have hdir := h.sound.dirInv hw
  have hdir' : ((s.dirAt d).splitVmdesc ⟨v.vmStart, v.vmEnd⟩ addr newIsFront alloc).Inv := by
    obtain ⟨d', heq, hkept⟩ : ∃ d', (s.dirAt d).splitVmdesc ⟨v.vmStart, v.vmEnd⟩ addr newIsFront alloc =
        { d' with cuts := addr :: d'.cuts } ∧ (s.dirAt d).Kept d' :=
      Directory.kept_splitVmdesc hdir havail
    rw [heq]
    exact hkept.inv.record _
  obtain ⟨hsound, hwhole, hkeeps⟩ := sound_populate h.sound hd hw havail
    (Directory.reordered_splitVmdesc hdir havail) hdir'
  obtain ⟨hbase, href, hinside, -⟩ := h.views d hd
  refine ⟨inv_of_idle h hbusy hd ⟨rfl, rfl, fun e he => Function.update_of_ne he ..,
    fun e he => Function.update_of_ne he .., fun e he => Function.update_of_ne he .., fun _ _ => rfl⟩ rfl
    hsound.relabel hkeeps hwhole ?_, hkeeps⟩
  refine ⟨?_, ?_, ?_, ?_⟩ <;> simp only [splitVmdesc, Function.update_self]
  · exact hbase
  · simp only [Vmdesc.splitView, Vmdesc.get, List.length_cons, href, List.length_erase_of_mem hv]
    have hpos := List.length_pos_of_mem hv
    omega
  · obtain ⟨hlow, -, hhigh⟩ := hinside v hv
    intro u hu
    rcases List.mem_cons.mp hu with rfl | hu
    · exact ⟨hlow, hstart, hend.le.trans hhigh⟩
    · rcases List.mem_cons.mp hu with rfl | hu
      · exact ⟨hlow.trans hstart.le, hend, hhigh⟩
      · exact hinside u (List.mem_of_mem_erase hu)
  · exact fun hnil => by cases hnil

/-! ### Copies -/

/-- What a copy-on-write fault does. -/
theorem cow_cases {idx id base : ℕ} {fails : Option ℕ} (hs : s.cow d idx id base fails = some s') :
    ∃ x g start order, (s.dirAt d).gpaAt idx = some (x, g) ∧ s.backing.groupAt idx = some (start, order) ∧
      ((∃ w, s' = { s with wprotect := w }) ∨
      (1 < s.refcnt ⟨x.group, g.member (g.empGetBlockHead x.member)⟩ ∧ fails = none ∧
        s' = s.changeGpaDir d id base g x.group start order) ∨
      ∃ m, fails = some m ∧ g.IsHead m ∧
        s' = ({ s with group := Function.update s.group id (some { g with base := base }) }).freeGpadesc
          ⟨id, m⟩) := by
  obtain ⟨⟨x, g⟩, hx, hrest⟩ := Option.bind_eq_some_iff.mp hs
  obtain ⟨⟨start, order⟩, hat, hrest⟩ := Option.bind_eq_some_iff.mp hrest
  refine ⟨x, g, start, order, hx, hat, ?_⟩
  simp only at hrest
  split_ifs at hrest with hprot href
  · obtain rfl := Option.some.inj hrest
    exact .inl ⟨s.wprotect, rfl⟩
  · exact .inl ⟨_, (Option.some.inj hrest).symm⟩
  · rw [not_le] at href
    cases fails with
    | none => exact .inr (.inl ⟨href, rfl, (Option.some.inj hrest).symm⟩)
    | some m =>
        simp only at hrest
        obtain ⟨hhead, rfl⟩ := Transition.of_guard hrest
        exact .inr (.inr ⟨m, rfl, hhead, rfl⟩)

/-- A copy-on-write fault, one that fails included. -/
theorem inv_cow {idx id base : ℕ} {fails : Option ℕ} (h : s.Inv) (hbusy : s.busy d = false)
    (havail : (s.dirAt d).available idx (some (id, base))) (hs : s.cow d idx id base fails = some s') :
    s'.Inv ∧ s.Keeps s' := by
  obtain ⟨x, g, start, order, hx, hat, hcase⟩ := cow_cases hs
  have hslot : s.gpaDir d idx = some x := (Directory.gpaAt_eq_some.mp hx).1
  have hd := (h.sound.slot d idx x hslot).1
  have hw := h.whole d ((busy_eq_false h).mp hbusy).1
  have hne := vmrs_ne_of_slot h hslot
  have hviews := h.views d hd
  rcases hcase with ⟨w, rfl⟩ | ⟨-, -, rfl⟩ | ⟨m, -, -, rfl⟩
  · -- the fault is answered without a copy
    have hsound := h.sound
    refine ⟨inv_of_idle h hbusy hd ⟨rfl, rfl, fun _ _ => rfl, fun _ _ => rfl, fun _ _ => rfl,
      fun _ _ => rfl⟩ rfl hsound.relabel (fun id g hg => ⟨g, hg, rfl, rfl, rfl⟩) hw
      (hviews.of_vmrs rfl rfl rfl fun hnil => absurd hnil hne), fun id g hg => ⟨g, hg, rfl, rfl, rfl⟩⟩
  · obtain ⟨hsound, hwhole, hkeeps⟩ := sound_changeGpaDir h.sound hd hw havail hx hat
    refine ⟨inv_of_idle h hbusy hd ⟨rfl, rfl, fun e he => Function.update_of_ne he .., fun _ _ => rfl,
      fun _ _ => rfl, fun _ _ => rfl⟩ rfl hsound hkeeps hwhole ?_, hkeeps⟩
    exact hviews.of_vmrs rfl rfl rfl fun hnil => absurd hnil hne
  · obtain ⟨hfree, -, -, hcopy, -⟩ := Directory.copyGroup_spec (h.sound.dirInv hw) havail hx hat
    obtain ⟨hsound, hkeeps⟩ := sound_failed h.sound hfree (hcopy.congr rfl rfl)
    have hsame : ∀ s₁ : ForkSys, ∃ f k, s₁.freeGpadesc ⟨id, m⟩ = { s₁ with frees := f, strayFrees := k } := by
      intro s₁
      rw [freeGpadesc]
      split_ifs
      · exact ⟨_, _, rfl⟩
      · exact ⟨_, _, rfl⟩
    have hfreed := sound_freeGpadesc hsound ⟨id, m⟩
    obtain ⟨f, k, heq⟩ := hsame { s with group := Function.update s.group id (some { g with base := base }) }
    rw [heq] at hfreed ⊢
    refine ⟨inv_of_idle h hbusy hd ⟨rfl, rfl, fun _ _ => rfl, fun _ _ => rfl, fun _ _ => rfl,
      fun _ _ => rfl⟩ rfl hfreed hkeeps (whole_of_other h.sound hw rfl hkeeps) ?_, hkeeps⟩
    exact hviews.of_vmrs rfl rfl rfl fun hnil => absurd hnil hne

/-! ### Forks -/

/-- A private fork is about to fill a new directory. -/
theorem inv_fork {mm : ℕ} {v : Vmr} {vs : List Vmr} (h : s.Inv) (hbusy : s.busy d = false)
    (hd : d < s.numDescs) (hvs : ∀ w ∈ v :: vs, w ∈ s.vmrs d)
    (hwhole : v.wipeOnFork = true ∨ ∀ i j, s.backing.groupAt i = s.backing.groupAt j →
      (s.gpaDir d i).isSome → (∃ w ∈ v :: vs, s.backing.InView w i) → ∃ w ∈ v :: vs, s.backing.InView w j) :
    (s.fork d mm v vs).Inv := by
  obtain ⟨hidle, -⟩ := (busy_eq_false h).mp hbusy
  have hsound := h.sound
  have hempty : ∀ i, s.gpaDir s.numDescs i = none := by
    intro i
    by_contra hne
    obtain ⟨x, hx⟩ := Option.ne_none_iff_exists'.mp hne
    exact lt_irrefl _ (hsound.slot _ i x hx).1
  have hne : ∀ e, e < s.numDescs → e ≠ s.numDescs := fun e he => he.ne
  have hinside := fun w hw => (h.views d hd).inside w (hvs w hw)
  have hsound' : (s.fork d mm v vs).Sound := by
    refine ⟨hsound.valid, hsound.pos, Nat.succ_pos _, hsound.member, fun e i x hx => ?_,
      fun x g hg hm => ?_, hsound.fresh, hsound.nullRemoved⟩
    · exact (hsound.slot e i x hx).imp Nat.lt_succ_of_lt id
    · have hcounted := hsound.counted x g hg hm
      rw [Counted] at hcounted ⊢
      change s.refcnt x = (Nat.count (fun e => s.gpaDir e (g.start + x.member) = some x) (s.numDescs + 1) : ℕ)
      rw [Nat.count_succ, hempty, if_neg (fun hc => by cases hc), Nat.add_zero, hcounted]
  refine ⟨hsound', fun e he => ?_, fun c t ht => ?_, fun e he => ?_, fun e he => ?_⟩
  · by_cases hec : e = s.numDescs
    · intro i x g hx
      rw [show (s.fork d mm v vs).gpaDir e i = none from hec ▸ hempty i] at hx
      cases hx
    · exact h.whole e ((Function.update_of_ne hec ..).symm.trans he)
  · by_cases hc : c = s.numDescs
    · subst hc
      have htask := (Function.update_self (f := s.task) ..).symm.trans ht
      split_ifs at htask with hwipe
      obtain rfl := Option.some.inj htask
      have hcut := hwhole.resolve_left hwipe
      refine ⟨hd.ne, Nat.lt_succ_self _, Nat.lt_succ_of_lt hd, ?_, ?_⟩
      · exact (Function.update_of_ne hd.ne ..).trans hidle
      · have hvmrs : (s.fork d mm v vs).vmrs s.numDescs = [{ v with mm := mm, descs := s.numDescs }] :=
          Function.update_self ..
        rw [hvmrs]
        have hnone : ∀ i x, (s.fork d mm v vs).gpaDir s.numDescs i ≠ some x := by
          intro i x hx
          rw [show (s.fork d mm v vs).gpaDir s.numDescs i = none from hempty i] at hx
          cases hx
        have hview : ∀ i, (∃ w ∈ [{ v with mm := mm, descs := s.numDescs }] ++ vs.map fun w : Vmr =>
            { w with mm := mm, descs := s.numDescs }, s.backing.InView w i) ↔
              ∃ w ∈ v :: vs, s.backing.InView w i := by
          intro i
          simp [Backing.InView]
        refine ⟨fun i x hx => absurd hx (hnone i x), fun i x hx => absurd hx (hnone i x),
          fun i j hij hp hi => ?_, fun w hw => ?_, _, [], rfl, rfl, (fun u hu => by cases hu),
          fun i hi hlt => absurd hi.1 (not_le.mpr hlt), fun hlt => absurd hlt (lt_irrefl _)⟩
        · exact (hview j).mpr (hcut i j hij hp ((hview i).mp hi))
        · simp only [List.singleton_append, List.mem_cons, List.mem_map] at hw
          rcases hw with rfl | ⟨u, hu, rfl⟩
          · exact hinside v (List.mem_cons_self ..)
          · exact hinside u (List.mem_cons_of_mem _ hu)
    · have ht' := (Function.update_of_ne hc ..).symm.trans ht
      obtain ⟨hpne, hlt, hplt, hpidle, hfills⟩ := h.walking c t ht'
      refine ⟨hpne, Nat.lt_succ_of_lt hlt, Nat.lt_succ_of_lt hplt, ?_, ?_⟩
      · exact (Function.update_of_ne (hne _ hplt) ..).trans hpidle
      · rw [show (s.fork d mm v vs).vmrs c = s.vmrs c from Function.update_of_ne hc ..]
        exact hfills
  · by_cases hec : e = s.numDescs
    · subst hec
      refine ⟨?_, ?_, fun u hu => ?_, fun hnil => ?_⟩
      · simp only [fork, Function.update_self]
        rfl
      · simp only [fork, Function.update_self]
        rfl
      · simp only [fork, Function.update_self, List.mem_singleton] at hu
        subst hu
        exact hinside v (List.mem_cons_self ..)
      · simp only [fork, Function.update_self] at hnil
        cases hnil
    · have he' : e < s.numDescs := lt_of_le_of_ne (Nat.le_of_lt_succ he) hec
      exact (h.views e he').of_vmrs rfl (Function.update_of_ne hec ..) (Function.update_of_ne hec ..)
        (h.views e he').empty
  · have hec : e ≠ s.numDescs := fun heq => by
      subst heq
      exact Nat.not_succ_le_self _ he
    exact (Function.update_of_ne hec ..).trans (h.beyond e ((Nat.le_succ _).trans he))

/-! ### The walk of a fork -/

theorem copyBlock_self (h : ℕ) (pos : Slot) (n : ℕ) : (s.copyBlock c h pos n).gpaDir c = fun i =>
    if h ≤ i ∧ i < h + n ∧ s.gpaDir c i = none then some ⟨pos.group, pos.member + (i - h)⟩
    else s.gpaDir c i := Function.update_self ..

/-- Slots of the parent are copied to the places of their descriptors. -/
theorem sound_copyBlock {h : ℕ} (hs : s.Sound) (hc : c < s.numDescs) (hg : s.group pos.group = some g)
    (hh : h = g.start + pos.member)
    (hblock : ∀ j < n, s.gpaDir d (h + j) = some ⟨pos.group, pos.member + j⟩) :
    (s.copyBlock c h pos n).Sound := by
  refine sound_slots hs hc ⟨rfl, rfl, rfl, rfl, fun e he => Function.update_of_ne he ..⟩ hs.member
    (fun id g hg => ⟨g, hg, rfl, rfl, rfl⟩) (fun i x hx => ?_) (fun x g' hg' hm => ?_) fun x hx => ?_
  · simp only [copyBlock_self] at hx
    split_ifs at hx with hin
    · have hslot := hblock (i - h) (by omega)
      rw [Nat.add_sub_cancel' hin.1, Option.some.inj hx] at hslot
      exact (hs.slot d i x hslot).2
    · exact (hs.slot c i x hx).2
  · simp only [copyBlock_self]
    have href : (s.copyBlock c h pos n).refcnt x =
        if x.group = pos.group ∧ pos.member ≤ x.member ∧ x.member < pos.member + n ∧
          s.gpaDir c (h + (x.member - pos.member)) = none then s.refcnt x + 1 else s.refcnt x := rfl
    rw [href]
    by_cases hin : x.group = pos.group ∧ pos.member ≤ x.member ∧ x.member < pos.member + n
    · obtain ⟨hgroup, hle, hlt⟩ := hin
      obtain rfl : g = g' := Option.some.inj (hg.symm.trans (hgroup ▸ hg'))
      have hidx : h + (x.member - pos.member) = g.start + x.member := by omega
      have hxeq : Slot.mk pos.group (pos.member + (g.start + x.member - h)) = x := by
        rw [← hgroup, show pos.member + (g.start + x.member - h) = x.member by omega]
      rw [hidx, hxeq]
      by_cases hnone : s.gpaDir c (g.start + x.member) = none
      · have hcopy : h ≤ g.start + x.member ∧ g.start + x.member < h + n ∧
            s.gpaDir c (g.start + x.member) = none := ⟨by omega, by omega, hnone⟩
        have hold : s.gpaDir c (g.start + x.member) ≠ some x := by
          rw [hnone]
          exact fun hc => by cases hc
        rw [if_pos ⟨hgroup, hle, hlt, hnone⟩, if_neg hold, if_pos hcopy, if_pos rfl, add_zero]
      · have hcopy : ¬ (h ≤ g.start + x.member ∧ g.start + x.member < h + n ∧
            s.gpaDir c (g.start + x.member) = none) := fun hc => hnone hc.2.2
        have hcount : ¬ (x.group = pos.group ∧ pos.member ≤ x.member ∧ x.member < pos.member + n ∧
            s.gpaDir c (g.start + x.member) = none) := fun hc => hnone hc.2.2.2
        rw [if_neg hcopy, if_neg hcount]
    · have hcount : ¬ (x.group = pos.group ∧ pos.member ≤ x.member ∧ x.member < pos.member + n ∧
          s.gpaDir c (h + (x.member - pos.member)) = none) := fun hc => hin ⟨hc.1, hc.2.1, hc.2.2.1⟩
      rw [if_neg hcount]
      congr 1
      refine if_congr ?_ rfl rfl
      by_cases hcopy : h ≤ g'.start + x.member ∧ g'.start + x.member < h + n ∧
          s.gpaDir c (g'.start + x.member) = none
      · -- the slot is filled with another descriptor
        rw [if_pos hcopy, hcopy.2.2]
        refine iff_of_false (fun hc => by cases hc) fun hc => hin ?_
        have hxeq := Option.some.inj hc
        rw [← hxeq]
        refine ⟨rfl, Nat.le_add_right _ _, ?_⟩
        simp only
        omega
      · rw [if_neg hcopy]
  · have hne : x.group ≠ pos.group := fun heq => by
      rw [show (s.copyBlock c h pos n).group x.group = s.group x.group from rfl, heq, hg] at hx
      cases hx
    have href : (s.copyBlock c h pos n).refcnt x = s.refcnt x := if_neg fun hc => hne hc.1
    rw [href]
    exact hs.fresh x hx

/-- A step of the walk. -/
theorem walk_cases {alloc : Bool} (hs : s.walk c alloc = some s') : ∃ t, s.task c = some t ∧
    ((∃ index, t.pc = .find index ∧
      ((∃ h, (s.dirAt t.parent).getNextExistHead index = some h ∧ h < t.indexEnd ∧
        s' = s.setPc c t (.lock h)) ∨
      (∀ h, (s.dirAt t.parent).getNextExistHead index = some h → t.indexEnd ≤ h) ∧
        s' = s.nextView c t alloc)) ∨
    (∃ h x g, t.pc = .lock h ∧ (s.dirAt t.parent).gpaAt h = some (x, g) ∧
      s' = (s.copyBlock c h ⟨x.group, g.member (g.empGetBlockHead x.member)⟩
        (g.gpa (g.member (g.empGetBlockHead x.member))).numSubblock).setPc c t
          (.next h ⟨x.group, g.member (g.empGetBlockHead x.member)⟩)) ∨
    ∃ h pos g, t.pc = .next h pos ∧ s.group pos.group = some g ∧
      s' = s.setPc c t (.find (h + (g.gpa pos.member).numSubblock))) := by
  obtain ⟨t, ht, hrest⟩ := Option.bind_eq_some_iff.mp hs
  refine ⟨t, ht, ?_⟩
  cases hpc : t.pc with
  | find index =>
      simp only [hpc] at hrest
      refine .inl ⟨index, rfl, ?_⟩
      cases hnext : (s.dirAt t.parent).getNextExistHead index with
      | none =>
          simp only [hnext, Option.some.injEq] at hrest
          exact .inr ⟨(fun h hh => by cases hh), hrest.symm⟩
      | some h =>
          simp only [hnext, Option.some.injEq] at hrest
          split_ifs at hrest with hlt
          · exact .inl ⟨h, rfl, hlt, hrest.symm⟩
          · refine .inr ⟨fun h' hh' => ?_, hrest.symm⟩
            rw [← Option.some.inj hh']
            exact not_lt.mp hlt
  | lock h =>
      simp only [hpc] at hrest
      obtain ⟨⟨x, g⟩, hx, rfl⟩ := Option.map_eq_some_iff.mp hrest
      exact .inr (.inl ⟨h, x, g, rfl, hx, rfl⟩)
  | next h pos =>
      simp only [hpc] at hrest
      obtain ⟨g, hg, rfl⟩ := Option.map_eq_some_iff.mp hrest
      exact .inr (.inr ⟨h, pos, g, rfl, hg, rfl⟩)

/-- The fork that fills `c` goes on. -/
theorem inv_of_walking {pc : WalkPc} (h : s.Inv) (ht : s.task c = some t) (ho : s.Only s' c)
    (htask : s'.task c = some { t with pc := pc }) (hsound : s'.Sound) (hkeeps : s.Keeps s')
    (hdesc : s'.desc c = s.desc c) (hvmrs : s'.vmrs c = s.vmrs c)
    (hfills : Fills s.backing (s.gpaDir t.parent) (s'.gpaDir c) (s.vmrs c) { t with pc := pc }) :
    s'.Inv := by
  obtain ⟨hne, hlt, hplt, hidle, -⟩ := h.walking c t ht
  have hother : ∀ c' t', s.task c' = some t' → t'.parent ≠ c := by
    rintro c' t' ht' rfl
    rw [(h.walking c' t' ht').idle] at ht
    cases ht
  refine inv_of_only h hlt ho hother hsound hkeeps (fun hn => ?_) (fun t' ht' => ?_) ?_
  · rw [htask] at hn
    cases hn
  · obtain rfl := Option.some.inj (htask.symm.trans ht')
    refine ⟨hne, ho.numDescs ▸ hlt, ho.numDescs ▸ hplt, (ho.task _ hne).trans hidle, ?_⟩
    rw [ho.backing, hvmrs, ho.gpaDir _ hne]
    exact hfills
  · obtain ⟨w, done, hw, -⟩ := hfills.views
    refine (h.views c hlt).of_vmrs ho.backing hdesc hvmrs fun hnil => ?_
    rw [hw] at hnil
    cases hnil

/-- At the end of the last view the child has whole groups. -/
theorem whole_of_fills (h : s.Inv) (ht : s.task c = some t) (hrest : t.rest = [])
    (hall : ∀ v ∈ s.vmrs c, ∀ i, s.backing.InView v i → (s.gpaDir t.parent i).isSome →
      (s.gpaDir c i).isSome) : s.Whole c := by
  obtain ⟨-, -, -, hidle, hfills⟩ := h.walking c t ht
  intro i x g hx hg j hj hj'
  have hparent := h.whole t.parent hidle i x g (hfills.sub i x hx) hg
  have hat : ∀ k, g.start ≤ k → k < g.start + g.len →
      s.backing.groupAt k = some (g.start, g.allocOrder) := by
    intro k hk hk'
    obtain ⟨-, -, g', hg', hat, -⟩ := h.sound.slot t.parent k _ (hparent k hk hk')
    obtain rfl : g = g' := Option.some.inj (hg.symm.trans hg')
    exact hat
  obtain ⟨-, -, g', hg', hati, -⟩ := h.sound.slot c i x hx
  obtain rfl : g = g' := Option.some.inj (hg.symm.trans hg')
  refine hfills.whole hrest hall hx (hparent j hj hj') ((hat j hj hj').trans hati.symm) fun k hk hklen => ?_
  obtain ⟨s₀, o₀, hat₀, hle, hlt, -⟩ := Backing.groupAt_spec h.sound.valid hklen
  obtain ⟨rfl, rfl⟩ := Prod.mk.inj (Option.some.inj (hat₀.symm.trans (hk.trans hati)))
  have hlen : g.len = 2 ^ (g.allocOrder - s.backing.sbOrder) := (h.sound.memberAt c hg).len_eq
  rw [hparent k hle (hlen ▸ hlt)]
  rfl

/-- A step of the walk of a fork, if the block that it locks begins at the head that it has found,
and none is stepped over that has not been copied. -/
theorem inv_walk {alloc : Bool} (h : s.Inv) (hok : s.Uncut (.walk c alloc))
    (hs : s.walk c alloc = some s') : s'.Inv ∧ s.Keeps s' := by
  obtain ⟨t, ht, hcase⟩ := walk_cases hs
  obtain ⟨hne, hlt, -, hidle, hfills⟩ := h.walking c t ht
  have hsound := h.sound
  have hdir : (s.dirAt t.parent).Inv := hsound.dirInv (h.whole _ hidle)
  have hrefl : ∀ s₁ : ForkSys, s₁.group = s.group → s.Keeps s₁ :=
    fun s₁ hg₁ id g hg => ⟨g, hg₁ ▸ hg, rfl, rfl, rfl⟩
  -- the walk goes on, and nothing else happens
  have hgo : ∀ pc, Fills s.backing (s.gpaDir t.parent) (s.gpaDir c) (s.vmrs c) { t with pc := pc } →
      (s.setPc c t pc).Inv := by
    intro pc hpc
    exact inv_of_walking h ht ⟨rfl, rfl, fun _ _ => rfl, fun _ _ => rfl, fun _ _ => rfl,
      fun e he => Function.update_of_ne he ..⟩ (Function.update_self ..)
      hsound.relabel (hrefl _ rfl) rfl rfl hpc
  rcases hcase with ⟨index, hpc, hfind⟩ | ⟨k, x, g, hpc, hx, rfl⟩ | ⟨k, pos, g, hpc, hg, rfl⟩
  · rcases hfind with ⟨k, hk, hend, rfl⟩ | ⟨hend, rfl⟩
    · obtain ⟨hsome, hnone, hback⟩ := Directory.isSome_of_getNextExistHead hdir hk
      refine ⟨hgo _ (hfills.find hsound.valid (fun i hi => ?_) hpc hsome hnone hback hend), hrefl _ rfl⟩
      obtain ⟨x, hx⟩ := Option.isSome_iff_exists.mp hi
      exact (hsound.slot _ i x hx).2.1
    · have hall := hfills.viewDone hpc fun i hi hi' => by
        by_contra hnone
        obtain ⟨k, -, -, hk, -, hki, -⟩ :=
          Directory.getNextExistHead_spec hdir (Option.isSome_iff_ne_none.mpr hnone) hi
        have hle := hend k hk
        omega
      have hother : ∀ c' t', s.task c' = some t' → t'.parent ≠ c := by
        rintro c' t' ht' rfl
        rw [(h.walking c' t' ht').idle] at ht
        cases ht
      cases hrest : t.rest with
      | nil =>
          have hnext : s.nextView c t alloc = { s with task := Function.update s.task c none } := by
            rw [nextView, hrest]
          have hw := whole_of_fills h ht hrest hall
          rw [hnext]
          refine ⟨inv_of_only h hlt ⟨rfl, rfl, fun _ _ => rfl, fun _ _ => rfl, fun _ _ => rfl,
            fun e he => Function.update_of_ne he ..⟩ hother hsound.relabel (hrefl _ rfl)
            (fun _ => hw) (fun t' ht' => ?_) ?_, hrefl _ rfl⟩
          · have htask := (Function.update_self (f := s.task) ..).symm.trans ht'
            cases htask
          · exact (h.views c hlt).of_vmrs rfl rfl rfl (h.views c hlt).empty
      | cons w ws =>
          have hnext : s.nextView c t alloc = { s with
              desc := Function.update s.desc c ((s.desc c).get.addView w false alloc)
              vmrs := Function.update s.vmrs c (w :: s.vmrs c)
              task := Function.update s.task c (some
                ⟨t.parent, s.backing.indexEnd w.vmEnd, .find (s.backing.indexOf w.vmStart), ws⟩) } := by
            rw [nextView, hrest]
          have hfills' := hfills.nextView hrest hall
          obtain ⟨hbase, href, hinside, -⟩ := h.views c hlt
          rw [hnext]
          refine ⟨inv_of_only h hlt ⟨rfl, rfl, fun _ _ => rfl, fun e he => Function.update_of_ne he ..,
            fun e he => Function.update_of_ne he .., fun e he => Function.update_of_ne he ..⟩ hother
            hsound.relabel (hrefl _ rfl) (fun hn => ?_) (fun t' ht' => ?_) ?_,
            hrefl _ rfl⟩
          · have htask := (Function.update_self (f := s.task) ..).symm.trans hn
            cases htask
          · have htask := (Function.update_self (f := s.task) ..).symm.trans ht'
            obtain rfl := Option.some.inj htask
            refine ⟨hne, hlt, (h.walking c t ht).parent, (Function.update_of_ne hne ..).trans hidle, ?_⟩
            simp only [Function.update_self]
            exact hfills'
          · refine ⟨?_, ?_, ?_, ?_⟩ <;> simp only [Function.update_self]
            · exact hbase
            · simp only [Vmdesc.addView, Vmdesc.get, List.length_cons, href]
            · intro u hu
              rcases List.mem_cons.mp hu with rfl | hu
              · exact hfills.inside u (by simp [hrest])
              · exact hinside u hu
            · exact fun hnil => by cases hnil
  · -- the block that is locked begins where its head has been found
    have hhead : g.IsHead x.member := by
      have h' := hok t ht
      rw [hpc] at h'
      exact h' x g hx
    obtain ⟨hlen, hmember, hat, hidx, hm, hall⟩ := hdir.range hx
    have heq : g.member (g.empGetBlockHead x.member) = x.member := by
      rw [hhead.2, Group.member_ptr hmember.placed]
    have hdown := (Group.isHead_iff hmember.placed hmember.geometry hm).mp hhead
    have hend := (hmember.geometry.block hm hdown).2.1
    rw [heq, Group.numSubblock_eq hmember.geometry hm]
    have hslot : ∀ j < 2 ^ (g.gpa x.member).descOrder,
        s.gpaDir t.parent (k + j) = some ⟨x.group, x.member + j⟩ := by
      intro j hj
      have hj' := (Directory.gpaAt_eq_some.mp (hall (k + j) (by omega) (by omega))).1
      rwa [show k + j - g.start = x.member + j by omega] at hj'
    have hg : s.group x.group = some g := (Directory.gpaAt_eq_some.mp hx).2
    have hsound' : (s.copyBlock c k x (2 ^ (g.gpa x.member).descOrder)).Sound :=
      sound_copyBlock hsound hlt hg hidx hslot
    refine ⟨inv_of_walking h ht ⟨rfl, rfl, fun e he => Function.update_of_ne he .., fun _ _ => rfl,
      fun _ _ => rfl, fun e he => Function.update_of_ne he ..⟩ (Function.update_self ..)
      hsound'.relabel (hrefl _ rfl) rfl rfl ?_, hrefl _ rfl⟩
    have hcopied := hfills.copied hpc hslot fun j hj => by
      have hj' := (hdir.range (hall (k + j) (by omega) (by omega)))
      exact ⟨hj'.1, hj'.2.2.1.trans hat.symm⟩
    have hself := copyBlock_self (s := s) (c := c) k x (2 ^ (g.gpa x.member).descOrder)
    exact hself ▸ hcopied
  · refine ⟨hgo _ (hfills.stepOver hsound.valid hpc ?_), hrefl _ rfl⟩
    have h' := hok t ht
    rw [hpc] at h'
    exact h' g hg

/-! ### Closes -/

/-- A close releases slots of whole groups, and the last one all of them. -/
theorem closes_closeAndFreeGpas {v : Vmr} (h : s.Inv) (hbusy : s.busy d = false) (hv : v ∈ s.vmrs d)
    (hl : s.backing.LowMemoryAligned) : (s.detach d v).Closes (s.closeAndFreeGpas d v) d ∧
      ((s.vmrs d).erase v = [] → ∀ i, (s.closeAndFreeGpas d v).gpaDir d i = none) := by
  have hd := lt_of_vmrs h (List.ne_nil_of_mem hv)
  obtain ⟨hbase, href, hinside, -⟩ := h.views d hd
  have hsound : (s.detach d v).Sound := h.sound.relabel
  have hw : (s.detach d v).Whole d := h.whole d ((busy_eq_false h).mp hbusy).1
  have hdesc : (s.detach d v).desc d = ((s.desc d).delView v).put := Function.update_self ..
  have hcount : ((s.detach d v).desc d).refcount = ((s.vmrs d).erase v).length := by
    rw [hdesc, List.length_erase_of_mem hv, ← href]
    rfl
  rw [closeAndFreeGpas]
  by_cases hmore : 0 < ((s.detach d v).desc d).refcount
  · have hend := VmdescDir.viewEnd_le (x := (s.detach d v).view d) (v := v)
      ((congrArg Vmdesc.vmBase hdesc).trans hbase) (hinside v hv)
    have hcloses : (s.detach d v).Closes (s.backing.setGpadescRegions.foldl
        (freeGpaDirRegion d (((s.detach d v).view d).releases v)
          (((s.detach d v).desc d).viewStart v / ((s.detach d v).view d).sbSize) _) (s.detach d v)) d :=
      closes_walk hsound hd hw hl hend fun _ => id
    simp only [view, hmore, if_true]
    refine ⟨hcloses, fun hnil => ?_⟩
    rw [hcount, hnil] at hmore
    cases hmore
  · have hcloses : (s.detach d v).Closes (s.backing.setGpadescRegions.foldl
        (freeGpaDirRegion d (fun _ _ => true) 0 s.backing.gpaLen) (s.detach d v)) d :=
      closes_walk hsound hd hw hl le_rfl fun _ => id
    have hempty := empty_of_last hsound hw hl
    simp only [view, hmore, if_false]
    set s₁ := s.backing.setGpadescRegions.foldl (freeGpaDirRegion d (fun _ _ => true) 0 s.backing.gpaLen)
      (s.detach d v) with hs₁
    have hnone : Function.update s₁.gpaDir d (fun _ => none) = s₁.gpaDir := by
      rw [Function.update_eq_self_iff]
      funext i
      exact (hempty i).symm
    rw [hnone]
    exact ⟨hcloses, fun _ => hempty⟩

theorem inv_close {v : Vmr} (h : s.Inv) (hbusy : s.busy d = false) (hv : v ∈ s.vmrs d)
    (hl : s.backing.LowMemoryAligned) :
    (s.closeAndFreeGpas d v).Inv ∧ s.Keeps (s.closeAndFreeGpas d v) := by
  have hd := lt_of_vmrs h (List.ne_nil_of_mem hv)
  obtain ⟨hbase, href, hinside, -⟩ := h.views d hd
  obtain ⟨hcloses, hlast⟩ := closes_closeAndFreeGpas h hbusy hv hl
  have hplace := hcloses.place
  set s' := s.closeAndFreeGpas d v
  have hgroup : s'.group = s.group := by rw [hplace]; rfl
  have hdesc : s'.desc = Function.update s.desc d ((s.desc d).delView v).put := by rw [hplace]; rfl
  have hvmrs : s'.vmrs = Function.update s.vmrs d ((s.vmrs d).erase v) := by rw [hplace]; rfl
  have htask : s'.task = s.task := by rw [hplace]; rfl
  have hb : s'.backing = s.backing := by rw [hplace]; rfl
  have hkeeps : s.Keeps s' := fun id g hg => ⟨g, hgroup ▸ hg, rfl, rfl, rfl⟩
  refine ⟨inv_of_idle h hbusy hd ⟨hb, ?_, fun e he => hcloses.other e he, fun e he => ?_, fun e he => ?_,
    fun e _ => congrFun htask e⟩ (congrFun htask d) hcloses.sound hkeeps hcloses.whole ?_, hkeeps⟩
  · rw [hplace]
    rfl
  · rw [hdesc, Function.update_of_ne he]
  · rw [hvmrs, Function.update_of_ne he]
  · have hdescd : s'.desc d = ((s.desc d).delView v).put := by rw [hdesc, Function.update_self]
    have hvmrsd : s'.vmrs d = (s.vmrs d).erase v := by rw [hvmrs, Function.update_self]
    refine ⟨?_, ?_, fun u hu => ?_, fun hnil => hlast (hvmrsd ▸ hnil)⟩
    · rw [hdescd, hb]
      exact hbase
    · rw [hdescd, hvmrsd, List.length_erase_of_mem hv, ← href]
      rfl
    · rw [hb]
      exact hinside u (List.mem_of_mem_erase (hvmrsd ▸ hu))

/-! ### Any step -/

theorem inv_of_step {ev : ForkEvent} (h : s.Inv) (hok : s.Uncut ev) (hs : step s ev = some s') :
    s'.Inv ∧ s.Keeps s' := by
  have hrefl : ∀ s₁ : ForkSys, s₁.group = s.group → s.Keeps s₁ :=
    fun s₁ hg₁ id g hg => ⟨g, hg₁ ▸ hg, rfl, rfl, rfl⟩
  cases ev with
  | touch d idx alloc =>
      obtain ⟨⟨hbusy, hne, havail⟩, rfl⟩ := Transition.of_guard hs
      exact inv_getGpadesc h hbusy hne havail
  | els id e =>
      simp only [step, Option.ite_none_right_eq_some] at hs
      obtain ⟨g, hg, hmap⟩ := Option.bind_eq_some_iff.mp hs.2
      obtain ⟨g', hstep, rfl⟩ := Option.map_eq_some_iff.mp hmap
      exact inv_els h hg hstep
  | attach d v alloc =>
      obtain ⟨⟨hbusy, hv⟩, rfl⟩ := Transition.of_guard hs
      exact ⟨inv_attach h hbusy hv, hrefl _ rfl⟩
  | split d v addr newIsFront alloc mem =>
      obtain ⟨⟨hbusy, hv, hstart, hend, havail⟩, rfl⟩ := Transition.of_guard hs
      exact inv_splitVmdesc h hbusy hv hstart hend havail
  | cow d idx id base fails =>
      simp only [step, Option.ite_none_right_eq_some] at hs
      exact inv_cow h hs.1.1 hs.1.2 hs.2
  | fork d mm v vs =>
      obtain ⟨⟨hbusy, hd, hvs, -⟩, rfl⟩ := Transition.of_guard hs
      exact ⟨inv_fork h hbusy hd (fun w hw => (hvs w hw).1) hok, hrefl _ rfl⟩
  | walk c alloc => exact inv_walk h hok hs
  | close d v =>
      obtain ⟨⟨hbusy, hv⟩, rfl⟩ := Transition.of_guard hs
      exact inv_close h hbusy hv hok

theorem inv_of_start (h : s.Start) : s.Inv := by
  obtain ⟨v, hin, hvmrs, hdesc⟩ := h.view
  have hnone : ∀ d i x, s.gpaDir d i ≠ some x := fun d i x hx => by
    rw [h.gpaDir] at hx
    cases hx
  have hgroup : ∀ id g, s.group id ≠ some g := fun id g hg => by
    rw [h.group] at hg
    cases hg
  refine ⟨⟨h.valid, h.gpaSize, h.numDescs ▸ Nat.one_pos, fun id g hg => absurd hg (hgroup id g),
    fun d i x hx => absurd hx (hnone d i x), fun x g hg => absurd hg (hgroup _ g), fun x _ => h.refcnt x,
    h.nullRemoved⟩, fun d _ i x g hx => absurd hx (hnone d i x), fun c t ht => ?_, fun d hd => ?_,
    fun d hd => h.vmrs d (Nat.lt_of_lt_of_le Nat.one_pos (h.numDescs ▸ hd))⟩
  · rw [h.task] at ht
    cases ht
  · obtain rfl : d = 0 := by
      rw [h.numDescs] at hd
      omega
    refine ⟨by rw [hdesc]; rfl, by rw [hdesc, hvmrs]; rfl, fun u hu => ?_, fun _ i => h.gpaDir 0 i⟩
    rw [hvmrs, List.mem_singleton] at hu
    exact hu ▸ hin

end ForkSys

end Emp
