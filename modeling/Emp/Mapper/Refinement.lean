import Emp.Mapper.Records
import Mathlib.Data.Set.Card

/-!
# The mapping records as a map with an owner

The records of a local page stand for a finite map from vmrs to pmds and an owner, which maps the
page if anyone does.  Every operation on the records is one on the map, and the embedded record
stays in one of its three legal states.

## Main definitions

* `Mappers`, `Mappers.Step` — the map with the owner, and what each operation may do to it.
* `MapperList.Legal` — the legal states of the records.
* `MapperList.mappers` — the map that they stand for.
-/

namespace Emp

/-- Who maps a local page, and who owns it. -/
structure Mappers (V P : Type*) where
  pmd : V → Option P
  owner : Option V

namespace Mappers

variable {V P : Type*} [DecidableEq V]

/-- Nobody maps the page. -/
def Unmapped (m : Mappers V P) : Prop := ∀ v, m.pmd v = none

/-- The operations on the map.  Only the owner that takes over from one that is removed is left
open: it is any other mapper. -/
inductive Step (m : Mappers V P) : MapperOp V P → MapperResult P → Mappers V P → Prop
  | insertFirst {v : V} {p : P} {alloc : Bool} (h : m.Unmapped) :
      Step m (.insert v p alloc) (.inserted true) ⟨Function.update m.pmd v (some p), some v⟩
  | insertKnown {v : V} {p : P} {alloc : Bool} (h : m.pmd v ≠ none) :
      Step m (.insert v p alloc) (.inserted true) m
  | insertNext {v : V} {p : P} (h : ¬ m.Unmapped) (hv : m.pmd v = none) :
      Step m (.insert v p true) (.inserted true)
        { m with pmd := Function.update m.pmd v (some p) }
  | insertFailed {v : V} {p : P} (h : ¬ m.Unmapped) (hv : m.pmd v = none) :
      Step m (.insert v p false) (.inserted false) m
  | popUnknown {v : V} (hv : m.pmd v = none) : Step m (.pop v) (.popped none) m
  | popOther {v : V} {p : P} (hv : m.pmd v = some p) (ho : m.owner ≠ some v) :
      Step m (.pop v) (.popped (some p)) { m with pmd := Function.update m.pmd v none }
  | popOwner {v w : V} {p : P} (hv : m.pmd v = some p) (ho : m.owner = some v) (hne : w ≠ v)
      (hw : m.pmd w ≠ none) :
      Step m (.pop v) (.popped (some p)) ⟨Function.update m.pmd v none, some w⟩
  | popLast {v : V} {p : P} (hv : m.pmd v = some p) (h : ∀ w, w ≠ v → m.pmd w = none) :
      Step m (.pop v) (.popped (some p)) ⟨Function.update m.pmd v none, some v⟩
  | promote {v : V} (h : m.pmd v ≠ none ∨ m.owner = some v) :
      Step m (.promote v) .done { m with owner := some v }
  | setOwner {v : V} (h : m.Unmapped) : Step m (.setOwner v) .done { m with owner := some v }
  | clearOwner (h : m.Unmapped) : Step m .clearOwner .done { m with owner := none }

end Mappers

namespace MapperList

variable {V P : Type*}

/-- The three states of the embedded record. -/
inductive Embedded (s : MapperList V P) : Prop
  | free (hvmr : s.pmds.vmr = none) (hpmd : s.pmds.pmd = none) (hnum : s.numPmds = 0)
  | retained (hvmr : s.pmds.vmr ≠ none) (hpmd : s.pmds.pmd = none) (hnum : s.numPmds = 0)
  | mapped (hvmr : s.pmds.vmr ≠ none) (hpmd : s.pmds.pmd ≠ none) (hnum : 0 < s.numPmds)

/-- Every record names a vmr and its pmd, and no vmr has two. -/
structure Distinct (l : List (MappedPmd V P)) : Prop where
  nodup : (l.map MappedPmd.vmr).Nodup
  named : ∀ r ∈ l, r.vmr ≠ none ∧ r.pmd ≠ none

/-- The records are distinct, the counter counts them, and the embedded one is in one of its
states. -/
structure Legal (s : MapperList V P) : Prop where
  distinct : Distinct s.records
  count : s.numPmds = s.records.length
  embedded : s.Embedded

theorem records_none {s : MapperList V P} (h : s.next = none) : s.records = [] := by
  rw [records, h]

theorem records_some {s : MapperList V P} {l : List (MappedPmd V P)} (h : s.next = some l) :
    s.records = s.pmds :: l := by
  rw [records, h]

variable [DecidableEq V]

/-- The map that the records stand for: `v` has the pmd of a record of its own. -/
def mappers (s : MapperList V P) : Mappers V P := ⟨fun v => s.empLpLookupPmd v, s.empLpOwner⟩

/-! ### Lists of records -/

section Lists

variable {l l' : List (MappedPmd V P)} {v w : V} {p q : P} {r : MappedPmd V P}

/-- The pmd of the first record of `v`. -/
def lookupIn (l : List (MappedPmd V P)) (v : V) : Option P :=
  (l.find? (MappedPmd.isOf v)).bind MappedPmd.pmd

omit [DecidableEq V] in
theorem Distinct.perm (h : Distinct l) (hp : l'.Perm l) : Distinct l' :=
  ⟨(hp.map _).nodup_iff.mpr h.nodup, fun r hr => h.named r (hp.mem_iff.mp hr)⟩

omit [DecidableEq V] in
theorem Distinct.of_cons (h : Distinct (r :: l)) : Distinct l :=
  ⟨(List.nodup_cons.mp h.nodup).2, fun _ hr => h.named _ (List.mem_cons_of_mem r hr)⟩

omit [DecidableEq V] in
theorem distinct_cons (h : Distinct l) (hv : ∀ r ∈ l, r.vmr ≠ some v) :
    Distinct (⟨some v, some p⟩ :: l) := by
  refine ⟨List.nodup_cons.mpr ⟨fun hmem => ?_, h.nodup⟩, fun r hr => ?_⟩
  · obtain ⟨r, hr, heq⟩ := List.mem_map.mp hmem
    exact hv r hr heq
  · rcases List.mem_cons.mp hr with rfl | hr
    · exact ⟨nofun, nofun⟩
    · exact h.named r hr

theorem lookupIn_cons (v : V) (r : MappedPmd V P) (l : List (MappedPmd V P)) :
    lookupIn (r :: l) v = if r.vmr = some v then r.pmd else lookupIn l v := by
  by_cases h : r.vmr = some v
  · rw [if_pos h, lookupIn, List.find?_cons_of_pos (by simp [MappedPmd.isOf, h]), Option.bind_some]
  · rw [if_neg h, lookupIn, List.find?_cons_of_neg (by simp [MappedPmd.isOf, h]), lookupIn]

theorem lookupIn_eq_none (h : ∀ r ∈ l, r.vmr ≠ some v) : lookupIn l v = none := by
  induction l with
  | nil => rfl
  | cons r l ih =>
      rw [lookupIn_cons, if_neg (h r List.mem_cons_self)]
      exact ih fun r' hr' => h r' (List.mem_cons_of_mem _ hr')

/-- In a list without repetitions a vmr has the pmd of any record of its own. -/
theorem lookupIn_eq_some (h : Distinct l) : lookupIn l v = some p ↔ ⟨some v, some p⟩ ∈ l := by
  induction l with
  | nil => exact ⟨nofun, nofun⟩
  | cons r l ih =>
      rw [lookupIn_cons, List.mem_cons]
      by_cases hr : r.vmr = some v
      · rw [if_pos hr]
        refine ⟨fun hp => .inl ?_, ?_⟩
        · obtain ⟨rv, rp⟩ := r
          simp only at hr hp
          rw [hr, hp]
        · rintro (rfl | hmem)
          · rfl
          · exact absurd (hr ▸ List.mem_map_of_mem (f := MappedPmd.vmr) hmem)
              (List.nodup_cons.mp h.nodup).1
      · rw [if_neg hr, ih h.of_cons]
        refine ⟨.inr, ?_⟩
        rintro (rfl | hmem)
        · exact absurd rfl hr
        · exact hmem

theorem lookupIn_perm (h : Distinct l) (hp : l'.Perm l) : lookupIn l' = lookupIn l := by
  funext v
  refine Option.ext fun p => ?_
  rw [lookupIn_eq_some (h.perm hp), lookupIn_eq_some h, hp.mem_iff]

/-- A record more. -/
theorem lookupIn_insert (v : V) (p : P) (l : List (MappedPmd V P)) :
    lookupIn (⟨some v, some p⟩ :: l) = Function.update (lookupIn l) v (some p) := by
  funext w
  rw [lookupIn_cons]
  by_cases h : w = v
  · rw [h, if_pos rfl, Function.update_self]
  · rw [Function.update_of_ne h, if_neg fun heq => h (Option.some.inj heq).symm]

/-- A record less. -/
theorem lookupIn_remove (h : Distinct l) (hp : l.Perm (⟨some v, some p⟩ :: l')) :
    lookupIn l v = some p ∧ lookupIn l' = Function.update (lookupIn l) v none := by
  have hcons := h.perm hp.symm
  rw [lookupIn_perm hcons hp, lookupIn_insert, Function.update_idem]
  refine ⟨Function.update_self .., ?_⟩
  have hnone : lookupIn l' v = none := lookupIn_eq_none fun r hr heq =>
    (List.nodup_cons.mp hcons.nodup).1 (List.mem_map.mpr ⟨r, hr, heq⟩)
  rw [← hnone, Function.update_eq_self]

/-- A vmr without a pmd has no record. -/
theorem lookupIn_eq_none_iff (h : Distinct l) :
    lookupIn l v = none ↔ ∀ r ∈ l, r.vmr ≠ some v := by
  refine ⟨fun hnone r hr heq => ?_, lookupIn_eq_none⟩
  obtain ⟨rv, rp⟩ := r
  obtain rfl : rv = some v := heq
  obtain ⟨p, hp⟩ := Option.ne_none_iff_exists'.mp (h.named _ hr).2
  obtain rfl : rp = some p := hp
  rw [(lookupIn_eq_some h).mpr hr] at hnone
  cases hnone

end Lists

/-! ### The operations -/

variable {s t : MapperList V P} {op : MapperOp V P} {res : MapperResult P} {v w : V} {p : P}

theorem mappers_pmd : s.mappers.pmd = lookupIn s.records := rfl

theorem unmapped_of_next (h : s.next = none) : s.mappers.Unmapped := fun v => by
  rw [mappers_pmd, records_none h]
  rfl

theorem not_unmapped_of_next (h : s.Legal) {l : List (MappedPmd V P)} (hn : s.next = some l) :
    ¬ s.mappers.Unmapped := by
  intro hun
  obtain ⟨v, hv⟩ := Option.ne_none_iff_exists'.mp (h.distinct.named s.pmds (by
    rw [records_some hn]
    exact List.mem_cons_self)).1
  exact (lookupIn_eq_none_iff h.distinct).mp (hun v) s.pmds (by
    rw [records_some hn]
    exact List.mem_cons_self) hv

/-- Nothing is mapped exactly if the link is null. -/
theorem unmapped_iff (h : s.Legal) : s.mappers.Unmapped ↔ s.numPmds = 0 := by
  rw [h.count]
  cases hn : s.next with
  | none => exact iff_of_true (unmapped_of_next hn) (by rw [records_none hn]; rfl)
  | some l =>
      refine iff_of_false (not_unmapped_of_next h hn) ?_
      rw [records_some hn, List.length_cons]
      omega

omit [DecidableEq V] in
/-- Records that are linked are in the mapped state if they are distinct and counted. -/
theorem legal_of_next {l : List (MappedPmd V P)} (hn : s.next = some l)
    (hd : Distinct (s.pmds :: l)) (hc : s.numPmds = (s.pmds :: l).length) : s.Legal := by
  have hpmds := hd.named s.pmds List.mem_cons_self
  rw [← records_some hn] at hd hc
  refine ⟨hd, hc, .mapped hpmds.1 hpmds.2 ?_⟩
  rw [hc, records_some hn, List.length_cons]
  omega

theorem any_isOf {l : List (MappedPmd V P)} :
    l.any (MappedPmd.isOf v) = true ↔ ∃ r ∈ l, r.vmr = some v := by
  simp [MappedPmd.isOf]

theorem insert_spec (h : s.Legal) (v : V) (p : P) (alloc : Bool) :
    (s.empLpInsertPmd v p alloc).2.Legal ∧
      Mappers.Step s.mappers (.insert v p alloc) (.inserted (s.empLpInsertPmd v p alloc).1)
        (s.empLpInsertPmd v p alloc).2.mappers := by
  unfold empLpInsertPmd
  cases hn : s.next with
  | none =>
      have hzero : s.numPmds = 0 := (unmapped_iff h).mp (unmapped_of_next hn)
      refine ⟨legal_of_next rfl (distinct_cons ⟨List.nodup_nil, nofun⟩ nofun) ?_, ?_⟩
      · show s.numPmds + 1 = _
        rw [hzero]
        rfl
      · have hstep : Mappers.Step s.mappers (.insert v p alloc) (.inserted true)
            ⟨Function.update s.mappers.pmd v (some p), some v⟩ := .insertFirst (unmapped_of_next hn)
        rw [mappers_pmd, records_none hn, ← lookupIn_insert] at hstep
        exact hstep
  | some l =>
      have hrec := records_some hn
      simp only []
      by_cases hany : (s.pmds :: l).any (MappedPmd.isOf v) = true
      · rw [if_pos hany]
        obtain ⟨r, hr, hrv⟩ := any_isOf.mp hany
        refine ⟨h, .insertKnown fun hnone => ?_⟩
        exact (lookupIn_eq_none_iff h.distinct).mp hnone r (hrec ▸ hr) hrv
      · have hnew : ∀ r ∈ s.records, r.vmr ≠ some v := fun r hr hrv =>
          hany (any_isOf.mpr ⟨r, hrec ▸ hr, hrv⟩)
        have hv : s.mappers.pmd v = none := lookupIn_eq_none hnew
        rw [if_neg hany]
        cases alloc with
        | false => exact ⟨h, .insertFailed (not_unmapped_of_next h hn) hv⟩
        | true =>
            -- the order of the chain does not matter
            have hperm :
                (s.pmds :: ⟨some v, some p⟩ :: l).Perm (⟨some v, some p⟩ :: s.records) := by
              rw [hrec]
              exact List.Perm.swap ..
            have hdist := distinct_cons (p := p) h.distinct hnew
            refine ⟨legal_of_next rfl (hdist.perm hperm) ?_, ?_⟩
            · rw [if_pos rfl]
              show s.numPmds + 1 = ((s.pmds :: ⟨some v, some p⟩ :: l).length : ℤ)
              rw [hperm.length_eq, List.length_cons, h.count]
              rfl
            · have hstep := Mappers.Step.insertNext (p := p) (not_unmapped_of_next h hn) hv
              rw [mappers_pmd, ← lookupIn_insert, ← lookupIn_perm hdist hperm] at hstep
              exact hstep

/-- A chain without its first record of `v`. -/
theorem perm_eraseP {l : List (MappedPmd V P)} {r : MappedPmd V P}
    (h : l.find? (MappedPmd.isOf v) = some r) :
    r.vmr = some v ∧ l.Perm (r :: l.eraseP (MappedPmd.isOf v)) := by
  obtain ⟨hr, as, bs, rfl, has⟩ := List.find?_eq_some_iff_append.mp h
  have has' : ∀ a ∈ as, ¬ MappedPmd.isOf v a = true := fun a ha hav => by
    have := has a ha
    rw [hav] at this
    cases this
  rw [List.eraseP_append_right _ has', List.eraseP_cons_of_pos hr]
  exact ⟨of_decide_eq_true hr, List.perm_middle⟩

theorem pop_spec (h : s.Legal) (v : V) :
    (s.empLpPopPmd v).2.Legal ∧
      Mappers.Step s.mappers (.pop v) (.popped (s.empLpPopPmd v).1)
        (s.empLpPopPmd v).2.mappers := by
  unfold empLpPopPmd
  cases hn : s.next with
  | none => exact ⟨h, .popUnknown (unmapped_of_next hn v)⟩
  | some l =>
      have hrec := records_some hn
      have hcount := h.count
      have hdist := h.distinct
      rw [hrec] at hcount hdist
      simp only []
      by_cases hv : s.pmds.vmr = some v
      · rw [if_pos (show s.pmds.isOf v = true from decide_eq_true hv)]
        obtain ⟨p, hp⟩ := Option.ne_none_iff_exists'.mp (hdist.named s.pmds List.mem_cons_self).2
        have hperm : s.records.Perm (⟨some v, some p⟩ :: l) := by
          rw [hrec, ← hv, ← hp]
        obtain ⟨hlook, hrest⟩ := lookupIn_remove h.distinct hperm
        cases l with
        | nil =>
            refine ⟨⟨⟨List.nodup_nil, nofun⟩, ?_, .retained ?_ rfl ?_⟩, ?_⟩
            · show s.numPmds - 1 = 0
              rw [hcount]
              rfl
            · show s.pmds.vmr ≠ none
              rw [hv]
              exact nofun
            · show s.numPmds - 1 = 0
              rw [hcount]
              rfl
            · have hstep := Mappers.Step.popLast (m := s.mappers) hlook fun w hw => by
                rw [mappers_pmd, hrec, lookupIn_cons, hv,
                  if_neg fun heq => hw (Option.some.inj heq).symm]
                rfl
              rw [mappers_pmd, ← hrest, ← hv, ← hp] at hstep
              exact hstep
        | cons np l =>
            have hnp := hdist.of_cons
            obtain ⟨w, hw⟩ := Option.ne_none_iff_exists'.mp (hnp.named np List.mem_cons_self).1
            obtain ⟨q, hq⟩ := Option.ne_none_iff_exists'.mp (hnp.named np List.mem_cons_self).2
            refine ⟨legal_of_next rfl hnp ?_, ?_⟩
            · show s.numPmds - 1 = ((np :: l).length : ℤ)
              rw [hcount, List.length_cons, Nat.cast_succ, add_sub_cancel_right]
            · have hwv : w ≠ v := by
                rintro rfl
                refine (List.nodup_cons.mp hdist.nodup).1 ?_
                rw [hv, ← hw]
                exact List.mem_cons_self
              have hmap : s.mappers.pmd w = some q := by
                refine (lookupIn_eq_some h.distinct).mpr ?_
                rw [hrec, ← hw, ← hq]
                exact List.mem_cons_of_mem _ List.mem_cons_self
              have hstep := Mappers.Step.popOwner (m := s.mappers) hlook hv hwv
                (by rw [hmap]; exact nofun)
              rw [mappers_pmd, ← hrest, ← hp, ← hw] at hstep
              exact hstep
      · rw [if_neg (show ¬ s.pmds.isOf v = true from fun hd => hv (of_decide_eq_true hd))]
        cases hf : l.find? (MappedPmd.isOf v) with
        | none =>
            refine ⟨h, .popUnknown ?_⟩
            rw [mappers_pmd, hrec, lookupIn_cons, if_neg hv, lookupIn, hf, Option.bind_none]
        | some r =>
            obtain ⟨hrv, hperm⟩ := perm_eraseP hf
            have hmem : r ∈ s.pmds :: l := List.mem_cons_of_mem _ (List.mem_of_find?_eq_some hf)
            obtain ⟨p, hp⟩ := Option.ne_none_iff_exists'.mp (hdist.named r hmem).2
            have hall : s.records.Perm
                (⟨some v, some p⟩ :: s.pmds :: l.eraseP (MappedPmd.isOf v)) := by
              rw [hrec, ← hrv, ← hp]
              exact (hperm.cons _).trans (List.Perm.swap ..)
            obtain ⟨hlook, hrest⟩ := lookupIn_remove h.distinct hall
            refine ⟨legal_of_next rfl (h.distinct.perm hall.symm).of_cons ?_, ?_⟩
            · show s.numPmds - 1 = ((s.pmds :: l.eraseP (MappedPmd.isOf v)).length : ℤ)
              rw [h.count, hall.length_eq, List.length_cons, Nat.cast_succ, add_sub_cancel_right]
            · have hstep := Mappers.Step.popOther (m := s.mappers) hlook hv
              rw [mappers_pmd, ← hrest, ← hp] at hstep
              exact hstep

/-- The swap only reorders the records. -/
theorem swapRecord_perm {r q : MappedPmd V P} {l' : List (MappedPmd V P)} :
    ∀ {l : List (MappedPmd V P)}, swapRecord v r l = some (q, l') →
      q.vmr = some v ∧ (q :: l').Perm (r :: l)
  | [], h => by cases h
  | p :: l, h => by
      rw [swapRecord] at h
      by_cases hp : p.isOf v = true
      · rw [if_pos hp] at h
        obtain ⟨rfl, rfl⟩ := Prod.mk.inj (Option.some.inj h)
        exact ⟨of_decide_eq_true hp, List.Perm.swap ..⟩
      · rw [if_neg hp] at h
        obtain ⟨⟨q', l''⟩, hq, heq⟩ := Option.map_eq_some_iff.mp h
        obtain ⟨rfl, rfl⟩ := Prod.mk.inj heq
        obtain ⟨hv, hperm⟩ := swapRecord_perm hq
        refine ⟨hv, (List.Perm.swap ..).trans (((hperm.cons p)).trans (List.Perm.swap ..))⟩

theorem promote_spec (h : s.Legal) (hs : s.empLpPromoteOwner v = some t) :
    t.Legal ∧ Mappers.Step s.mappers (.promote v) .done t.mappers := by
  unfold empLpPromoteOwner at hs
  by_cases hv : s.pmds.vmr = some v
  · rw [if_pos (show s.pmds.isOf v = true from decide_eq_true hv)] at hs
    obtain rfl := Option.some.inj hs
    have hstep := Mappers.Step.promote (m := s.mappers) (.inr hv)
    rw [← hv] at hstep
    exact ⟨h, hstep⟩
  · rw [if_neg (show ¬ s.pmds.isOf v = true from fun hd => hv (of_decide_eq_true hd))] at hs
    obtain ⟨l, hn, hmap⟩ := Option.bind_eq_some_iff.mp hs
    obtain ⟨⟨q, l'⟩, hswap, rfl⟩ := Option.map_eq_some_iff.mp hmap
    obtain ⟨hq, hperm⟩ := swapRecord_perm hswap
    rw [← records_some hn] at hperm
    refine ⟨legal_of_next rfl (h.distinct.perm hperm) ?_, ?_⟩
    · show s.numPmds = _
      rw [h.count, ← hperm.length_eq]
    · have hmapped : s.mappers.pmd v ≠ none := fun hnone =>
        (lookupIn_eq_none_iff h.distinct).mp hnone q (hperm.mem_iff.mp List.mem_cons_self) hq
      have hstep := Mappers.Step.promote (m := s.mappers) (.inl hmapped)
      rw [mappers_pmd, ← lookupIn_perm h.distinct hperm, ← hq] at hstep
      exact hstep

/-- A page that nobody maps may have any owner. -/
theorem owner_spec (h : s.Legal) (hzero : s.numPmds = 0) (o : Option V) :
    Legal { s with pmds := { s.pmds with vmr := o } } ∧
      mappers { s with pmds := { s.pmds with vmr := o } } = { s.mappers with owner := o } := by
  have hpmd : s.pmds.pmd = none := by
    cases h.embedded with
    | free _ hpmd _ => exact hpmd
    | retained _ hpmd _ => exact hpmd
    | mapped _ _ hnum => omega
  have hn : s.next = none := by
    by_contra hne
    obtain ⟨l, hl⟩ := Option.ne_none_iff_exists'.mp hne
    exact not_unmapped_of_next h hl ((unmapped_iff h).mpr hzero)
  have hrec := records_none hn
  have hrec' : records { s with pmds := { s.pmds with vmr := o } } = [] := records_none hn
  refine ⟨⟨?_, ?_, ?_⟩, ?_⟩
  · rw [hrec']
    exact ⟨List.nodup_nil, nofun⟩
  · rw [hrec']
    exact hzero
  · cases o with
    | none => exact .free rfl hpmd hzero
    | some v => exact .retained nofun hpmd hzero
  · rw [mappers, mappers, Mappers.mk.injEq]
    refine ⟨funext fun v => ?_, rfl⟩
    show lookupIn (records _) v = lookupIn s.records v
    rw [hrec, hrec']

omit [DecidableEq V] in
theorem legal_init (o : Option V) : (init o : MapperList V P).Legal :=
  ⟨⟨List.nodup_nil, nofun⟩, rfl, by
    cases o with
    | none => exact .free rfl rfl rfl
    | some v => exact .retained nofun rfl rfl⟩

theorem call_spec (h : s.Legal) (hs : s.call op = some (res, t)) :
    t.Legal ∧ Mappers.Step s.mappers op res t.mappers := by
  cases op with
  | insert v p alloc =>
      obtain ⟨rfl, rfl⟩ := Prod.mk.inj (Option.some.inj hs)
      exact insert_spec h v p alloc
  | pop v =>
      obtain ⟨rfl, rfl⟩ := Prod.mk.inj (Option.some.inj hs)
      exact pop_spec h v
  | promote v =>
      obtain ⟨t', ht', heq⟩ := Option.map_eq_some_iff.mp hs
      obtain ⟨rfl, rfl⟩ := Prod.mk.inj heq
      exact promote_spec h ht'
  | setOwner v =>
      obtain ⟨hzero, heq⟩ := Transition.of_guard hs
      obtain ⟨rfl, rfl⟩ := Prod.mk.inj heq
      obtain ⟨hlegal, hmap⟩ := owner_spec h hzero (some v)
      refine ⟨hlegal, ?_⟩
      rw [empLpSetOwner, hmap]
      exact .setOwner ((unmapped_iff h).mpr hzero)
  | clearOwner =>
      obtain ⟨hzero, heq⟩ := Transition.of_guard hs
      obtain ⟨rfl, rfl⟩ := Prod.mk.inj heq
      obtain ⟨hlegal, hmap⟩ := owner_spec h hzero none
      refine ⟨hlegal, ?_⟩
      rw [empLpClearOwner, hmap]
      exact .clearOwner ((unmapped_iff h).mpr hzero)

theorem legal_of_step (h : s.Legal) (hs : s.step op = some t) : t.Legal := by
  obtain ⟨⟨res, t'⟩, hcall, rfl⟩ := Option.map_eq_some_iff.mp hs
  exact (call_spec h hcall).1

/-- The vmrs with a pmd, as many as there are records. -/
theorem ncard_lookupIn {l : List (MappedPmd V P)} (h : Distinct l) :
    {v | lookupIn l v ≠ none}.Finite ∧ {v | lookupIn l v ≠ none}.ncard = l.length := by
  induction l with
  | nil =>
      have hempty : {v : V | lookupIn ([] : List (MappedPmd V P)) v ≠ none} = ∅ :=
        Set.eq_empty_of_forall_notMem fun v hv => hv rfl
      rw [hempty]
      exact ⟨Set.finite_empty, Set.ncard_empty V⟩
  | cons r l ih =>
      obtain ⟨rv, rp⟩ := r
      obtain ⟨v, hv⟩ := Option.ne_none_iff_exists'.mp (h.named _ List.mem_cons_self).1
      obtain ⟨p, hp⟩ := Option.ne_none_iff_exists'.mp (h.named _ List.mem_cons_self).2
      obtain rfl : rv = some v := hv
      obtain rfl : rp = some p := hp
      obtain ⟨hfin, hcard⟩ := ih h.of_cons
      have hnew : v ∉ {w | lookupIn l w ≠ none} := fun hmem => hmem (lookupIn_eq_none
        fun r hr heq => (List.nodup_cons.mp h.nodup).1 (List.mem_map.mpr ⟨r, hr, heq⟩))
      have hinsert : {w | lookupIn (⟨some v, some p⟩ :: l) w ≠ none} =
          insert v {w | lookupIn l w ≠ none} := by
        refine Set.ext fun w => ?_
        rw [Set.mem_insert_iff, Set.mem_ofPred_eq, Set.mem_ofPred_eq, lookupIn_insert]
        by_cases hw : w = v
        · rw [hw, Function.update_self]
          exact iff_of_true nofun (.inl rfl)
        · rw [Function.update_of_ne hw]
          exact (or_iff_right hw).symm
      rw [hinsert]
      refine ⟨hfin.insert v, ?_⟩
      rw [Set.ncard_insert_of_notMem hnew hfin, hcard, List.length_cons]

/-- **The refinement.**  In every state that the operations reach the records are legal, the counter
counts the vmrs with a pmd, and an operation on the records is one on the map. -/
theorem mapperList_refines
    (h : Transition.Reach (fun s : MapperList V P => ∃ o, s = init o) step s) :
    s.Legal ∧ s.numPmds = {v | s.mappers.pmd v ≠ none}.ncard ∧
      ∀ op res t, s.call op = some (res, t) → Mappers.Step s.mappers op res t.mappers := by
  have hlegal : s.Legal := h.invariant (fun _ ⟨o, ho⟩ => ho ▸ legal_init o)
    fun _ _ _ hi _ hs => legal_of_step hi hs
  refine ⟨hlegal, ?_, fun op res t hcall => (call_spec hlegal hcall).2⟩
  rw [hlegal.count, mappers_pmd, (ncard_lookupIn hlegal.distinct).2]

/-- Three vmrs map a page, the owner goes and another takes over. -/
theorem mapperList_refines_three :
    ∃ s : MapperList ℕ ℕ, Transition.exec step (init (some 4))
      [.insert 1 10 true, .insert 2 20 true, .insert 3 30 true, .pop 1, .promote 2] = some s ∧
      s.Legal ∧ s.empLpLookupPmd 3 = some 30 := by
  have hrun : ∀ s : MapperList ℕ ℕ, Transition.exec step (init (some 4))
      [.insert 1 10 true, .insert 2 20 true, .insert 3 30 true, .pop 1, .promote 2] = some s →
      Transition.Reach (fun s : MapperList ℕ ℕ => ∃ o, s = init o) step s :=
    fun _ he => Transition.Reach.exec (.start ⟨some 4, rfl⟩) he
  exact ⟨_, rfl, (mapperList_refines (hrun _ rfl)).1, rfl⟩

end MapperList

end Emp
