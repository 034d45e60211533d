import Emp.Els.RegionGrid
import Emp.Els.Split
import Emp.View.Close

/-!
# What a close releases

The range that `find_uncovered` finds is exactly what the surviving views leave of the closing
one, and the walk comes upon every group that the closing view meets once.  So the close keeps
the slots that a surviving view meets, and releases the groups that lie in the closing view and
are met by no other; the last close releases the rest, and every slot has then been released as
often as it has been populated.

## Main definitions

* `VmdescDir.Swept` — the slots of a set have been released, and nothing else has changed.
* `VmdescDir.Rel` — the slots that a walk releases.
* `VmdescDir.CloseOk` — what a close does.
-/

namespace Emp

namespace ViewList

variable {vs : List View} {start finish s e p : ℕ} {l : ViewList}

/-- A view covers the page. -/
def Covered (vs : List View) (p : ℕ) : Prop := ∃ v ∈ vs, 0 < v.count ∧ v.start ≤ p ∧ p < v.finish

theorem covered_cons {v : View} :
    Covered (v :: vs) p ↔ (0 < v.count ∧ v.start ≤ p ∧ p < v.finish) ∨ Covered vs p := by
  simp only [Covered, List.mem_cons]
  constructor
  · rintro ⟨w, rfl | hw, hcov⟩
    · exact .inl hcov
    · exact .inr ⟨w, hw, hcov⟩
  · rintro (hcov | ⟨w, hw, hcov⟩)
    · exact ⟨v, .inl rfl, hcov⟩
    · exact ⟨w, .inr hw, hcov⟩

/-- Views that start later do not cover the page. -/
theorem not_covered_of_lt (h : ∀ v ∈ vs, p < v.start) : ¬ Covered vs p := by
  rintro ⟨v, hv, -, hle, -⟩
  exact absurd (h v hv) (not_lt.mpr hle)

/-- **The range that is found is exactly the uncovered part.** -/
theorem uncoveredFrom_spec (hsorted : vs.Pairwise fun v w => v.start ≤ w.start)
    (h : uncoveredFrom vs start finish = some (s, e)) (p : ℕ) :
    (s ≤ p ∧ p < e) ↔ (start ≤ p ∧ p < finish ∧ ¬ Covered vs p) := by
  induction vs generalizing start finish with
  | nil =>
      simp only [uncoveredFrom, Option.some.injEq, Prod.mk.injEq] at h
      simp [Covered, h.1, h.2]
  | cons v vs ih =>
      have hsort := List.pairwise_cons.mp hsorted
      rw [covered_cons]
      simp only [uncoveredFrom] at h
      split_ifs at h with hskip hbehind hfull hinner hleft
      · -- the view ends in front of the range, or counts nobody
        rw [ih hsort.2 h]
        have hout : start ≤ p → ¬ (0 < v.count ∧ v.start ≤ p ∧ p < v.finish) := by omega
        grind
      · obtain ⟨rfl, rfl⟩ := Prod.mk.inj (Option.some.inj h)
        have hlater : p < finish → ¬ Covered vs p := fun hp =>
          not_covered_of_lt fun w hw => by
            have hw := hsort.1 w hw
            omega
        have hout : p < finish → ¬ (0 < v.count ∧ v.start ≤ p ∧ p < v.finish) := by omega
        grind
      · obtain ⟨rfl, rfl⟩ := Prod.mk.inj (Option.some.inj h)
        have hin : start ≤ p → p < finish → 0 < v.count ∧ v.start ≤ p ∧ p < v.finish := by omega
        have hempty : ¬ (0 ≤ p ∧ p < 0) := by omega
        grind
      · -- what the view covers at the left end is taken off
        rw [ih hsort.2 h]
        have hin : start ≤ p → ((0 < v.count ∧ v.start ≤ p ∧ p < v.finish) ↔ ¬ v.finish ≤ p) := by
          omega
        have hmono : v.finish ≤ p → start ≤ p := by omega
        grind
      · obtain ⟨rfl, rfl⟩ := Prod.mk.inj (Option.some.inj h)
        have hlater : p < v.start → ¬ Covered vs p := fun hp =>
          not_covered_of_lt fun w hw => hp.trans_le (hsort.1 w hw)
        have hin : p < finish → ((0 < v.count ∧ v.start ≤ p ∧ p < v.finish) ↔ ¬ p < v.start) := by
          omega
        have hmono : p < v.start → p < finish := by omega
        grind

/-- The second question is answered exactly. -/
theorem coveredFrom_iff (hsorted : vs.Pairwise fun v w => v.start ≤ w.start) :
    coveredFrom vs start finish = true ↔
      ∃ v ∈ vs, 0 < v.count ∧ v.start < finish ∧ start < v.finish := by
  induction vs with
  | nil => simp [coveredFrom]
  | cons v vs ih =>
      have hsort := List.pairwise_cons.mp hsorted
      simp only [coveredFrom, List.exists_mem_cons_iff]
      split_ifs with hzero hbehind hin
      · rw [ih hsort.2]
        have hout : ¬ 0 < v.count := by omega
        grind
      · refine iff_of_false id ?_
        rintro (hv | ⟨w, hw, -, hlt, -⟩)
        · omega
        · have hle := hsort.1 w hw
          omega
      · exact iff_of_true rfl (.inl ⟨by omega, by omega, hin⟩)
      · rw [ih hsort.2]
        have hout : ¬ start < v.finish := hin
        grind

/-- The entries in use, in order of their starts. -/
theorem pairwise_start (h : l.WellFormed) :
    (l.head :: l.next).Pairwise fun v w => v.start ≤ w.start := by
  by_cases hz : l.head.count = 0
  · rw [h.empty hz]
    exact List.pairwise_singleton _ _
  · have hsorted := h.counted.sorted
    rw [entries, if_neg hz] at hsorted
    refine (List.pairwise_map.mp hsorted).imp fun {v w} hlt => ?_
    have hlex := (Prod.Lex.lt_iff ..).mp hlt
    simp only [View.entry, ofLex_toLex] at hlex
    omega

/-- An interval has an entry as long as it is viewed. -/
theorem mem_units_iff (h : l.WellFormed) {a b : ℕ} : toLex (a, b) ∈ l.units ↔
    ∃ v ∈ l.head :: l.next, 0 < v.count ∧ v.start = a ∧ v.finish = b := by
  rw [units, Counted.units, List.mem_flatMap]
  by_cases hz : l.head.count = 0
  · simp [entries, hz, h.empty hz]
  · rw [entries, if_neg hz]
    constructor
    · rintro ⟨c, hc, hmem⟩
      obtain ⟨v, hv, rfl⟩ := List.mem_map.mp hc
      obtain ⟨hpos, heq⟩ := List.mem_replicate.mp hmem
      simp only [View.entry, toLex_inj, Prod.mk.injEq] at hpos heq
      exact ⟨v, hv, by omega, heq.1.symm, heq.2.symm⟩
    · rintro ⟨v, hv, hpos, rfl, rfl⟩
      exact ⟨v.entry, List.mem_map_of_mem hv, List.mem_replicate.mpr ⟨hpos.ne', rfl⟩⟩

end ViewList

namespace VmdescDir

variable {x y z : VmdescDir} {v : Vmr} {i : ℕ}

/-! ### The walk -/

/-- The slots of `P` have been released, and nothing else has changed. -/
structure Swept (x y : VmdescDir) (P : ℕ → Prop) : Prop where
  place : y = { x with dir := { x.dir with gpaDir := y.dir.gpaDir }, removed := y.removed }
  inside : ∀ i, P i → y.dir.gpaDir i = none ∧ y.removed i = x.removed i + 1
  outside : ∀ i, ¬ P i → y.dir.gpaDir i = x.dir.gpaDir i ∧ y.removed i = x.removed i

variable {P Q R : ℕ → Prop}

theorem Swept.congr (h : x.Swept y P) (hiff : ∀ i, P i ↔ Q i) : x.Swept y Q :=
  ⟨h.place, fun i hi => h.inside i ((hiff i).mpr hi), fun i hi => h.outside i (mt (hiff i).mp hi)⟩

theorem swept_refl (x : VmdescDir) (h : ∀ i, ¬ P i) : x.Swept x P :=
  ⟨rfl, fun i hi => absurd hi (h i), fun _ _ => ⟨rfl, rfl⟩⟩

/-- Two releases of different slots. -/
theorem Swept.append (h : x.Swept y P) (h' : y.Swept z Q) (hdisj : ∀ i, P i → ¬ Q i) :
    x.Swept z fun i => P i ∨ Q i := by
  refine ⟨?_, fun i hi => ?_, fun i hi => ?_⟩
  · rw [h'.place, h.place]
  · rcases hi with hP | hQ
    · obtain ⟨hdir, hrem⟩ := h.inside i hP
      obtain ⟨hdir', hrem'⟩ := h'.outside i (hdisj i hP)
      exact ⟨hdir'.trans hdir, hrem'.trans hrem⟩
    · obtain ⟨-, hrem⟩ := h.outside i fun hP => hdisj i hP hQ
      obtain ⟨hdir', hrem'⟩ := h'.inside i hQ
      exact ⟨hdir', by rw [hrem', hrem]⟩
  · rw [not_or] at hi
    obtain ⟨hdir, hrem⟩ := h.outside i hi.1
    obtain ⟨hdir', hrem'⟩ := h'.outside i hi.2
    exact ⟨hdir'.trans hdir, hrem'.trans hrem⟩

theorem swept_removeGpaDir (x : VmdescDir) (lo n : ℕ) :
    x.Swept (x.removeGpaDir lo n) fun i => lo ≤ i ∧ i < lo + n :=
  ⟨rfl, fun _ hi => ⟨if_pos hi, if_pos hi⟩, fun _ hi => ⟨if_neg hi, if_neg hi⟩⟩

/-- The loop releases the populated groups it steps on. -/
theorem swept_freeGpaDirLoop {release : ℕ → Bool} {step finish : ℕ} (hpos : 0 < step) {fuel : ℕ}
    (hfuel : finish ≤ i + fuel) :
    x.Swept (freeGpaDirLoop release step finish fuel i x) fun j => ∃ b, i ≤ b ∧ b < finish ∧
      step ∣ b - i ∧ b ≤ j ∧ j < b + step ∧ (x.dir.gpaDir b).isSome ∧ release b = true := by
  induction fuel generalizing x i with
  | zero => exact swept_refl x fun j ⟨b, hb, hb', _⟩ => by omega
  | succ fuel ih =>
      rw [freeGpaDirLoop]
      split_ifs with hlt hrel
      · have hone := swept_removeGpaDir x i step
        have hrest := ih (x := x.removeGpaDir i step) (i := i + step) (by omega)
        refine (hone.append hrest fun j hj ⟨b, hb, _, _, hbj, _⟩ => by omega).congr fun j => ?_
        constructor
        · rintro (hj | ⟨b, hib, hbf, ⟨q, hq⟩, hbj, hjb, hsome, hr⟩)
          · exact ⟨i, le_rfl, hlt, by simp, hj.1, hj.2, hrel⟩
          · rw [(hone.outside b (by omega)).1] at hsome
            refine ⟨b, by omega, hbf, ⟨q + 1, ?_⟩, hbj, hjb, hsome, hr⟩
            rw [Nat.mul_add_one]
            omega
        · rintro ⟨b, hib, hbf, ⟨q, hq⟩, hbj, hjb, hsome, hr⟩
          cases q with
          | zero =>
              left
              omega
          | succ q =>
              rw [Nat.mul_add_one] at hq
              rw [← (hone.outside b (by omega)).1] at hsome
              exact .inr ⟨b, by omega, hbf, ⟨q, by omega⟩, hbj, hjb, hsome, hr⟩
      · refine (ih (x := x) (i := i + step) (by omega)).congr fun j => ?_
        constructor
        · rintro ⟨b, hib, hbf, ⟨q, hq⟩, hrest⟩
          refine ⟨b, by omega, hbf, ⟨q + 1, ?_⟩, hrest⟩
          rw [Nat.mul_add_one]
          omega
        · rintro ⟨b, hib, hbf, ⟨q, hq⟩, hbj, hjb, hsome, hr⟩
          cases q with
          | zero =>
              obtain rfl : b = i := by omega
              exact absurd ⟨hsome, hr⟩ hrel
          | succ q =>
              rw [Nat.mul_add_one] at hq
              exact ⟨b, by omega, hbf, ⟨q, by omega⟩, hbj, hjb, hsome, hr⟩
      · exact swept_refl x fun j ⟨b, hb, hb', _⟩ => by omega

/-- The slots that a walk of `[idxStart, idxEnd)` releases: those of the populated groups that
it meets and that are to be released. -/
def Rel (x : VmdescDir) (release : ℕ → ℕ → Bool) (idxStart idxEnd j : ℕ) : Prop :=
  j < x.dir.backing.gpaLen ∧ ∃ s o, x.dir.backing.groupAt j = some (s, o) ∧ s < idxEnd ∧
    idxStart < s + 2 ^ (o - x.dir.backing.sbOrder) ∧ (x.dir.gpaDir s).isSome ∧
    release (2 ^ (o - x.dir.backing.sbOrder)) s = true

/-- Where the walk of a region starts. -/
theorem walkStart_iff {p start idxStart b : ℕ} (hb : 2 ^ p ∣ b) :
    (if start < idxStart then alignDown p (idxStart - start) else 0) ≤ b ↔
      idxStart < start + b + 2 ^ p := by
  have hpos := Nat.two_pow_pos p
  split_ifs with h
  · have hle := alignDown_le p (idxStart - start)
    have hlt := lt_alignDown_add p (idxStart - start)
    constructor
    · omega
    · intro hidx
      by_contra hno
      have hnext := add_le_of_dvd_of_lt hb (dvd_alignDown p (idxStart - start)) (not_le.mp hno)
      omega
  · omega

/-- Where it ends. -/
theorem walkEnd_iff {p start finish idxEnd b : ℕ} (hb : 2 ^ p ∣ b) (hstart : start < idxEnd)
    (hfinish : start + b < finish) :
    b < (if idxEnd < finish then alignDown p (idxEnd - start + 2 ^ p - 1) else finish - start) ↔
      start + b < idxEnd := by
  split_ifs with h
  · have hle := alignDown_le p (idxEnd - start + 2 ^ p - 1)
    have hlt := lt_alignDown_add p (idxEnd - start + 2 ^ p - 1)
    constructor
    · intro hbe
      have hnext := add_le_of_dvd_of_lt hb (dvd_alignDown p (idxEnd - start + 2 ^ p - 1)) hbe
      omega
    · omega
  · omega

/-- The walk of one region. -/
theorem swept_freeGpaDirRegion {release : ℕ → ℕ → Bool} {idxStart idxEnd : ℕ} {r : GpadescRegion}
    (hm : x.dir.backing.Valid) (hl : x.dir.backing.LowMemoryAligned)
    (hend : idxEnd ≤ x.dir.backing.gpaLen) (hr : r ∈ x.dir.backing.setGpadescRegions) :
    x.Swept (freeGpaDirRegion release idxStart idxEnd x r) fun j =>
      (r.start ≤ j ∧ j < r.finish) ∧ x.Rel release idxStart idxEnd j := by
  by_cases hlen : r.start < x.dir.backing.gpaLen
  swap
  · -- behind the directory there is nothing to walk
    have hskip : freeGpaDirRegion release idxStart idxEnd x r = x := if_pos (.inl (by omega))
    rw [hskip]
    refine swept_refl x fun j hj => ?_
    have hjlen := hj.2.1
    omega
  obtain ⟨hgpaLen, hwhole, hgroup⟩ := Backing.region_onGrid hm hl hr hlen
  obtain ⟨-, hne, -⟩ := Backing.spec_of_mem hr
  generalize hp : r.allocOrder - x.dir.backing.sbOrder = p at hwhole hgroup
  have hpos := Nat.two_pow_pos p
  have hrel : ∀ j, r.start ≤ j → j < r.finish → (x.Rel release idxStart idxEnd j ↔
      r.start + alignDown p (j - r.start) < idxEnd ∧
      idxStart < r.start + alignDown p (j - r.start) + 2 ^ p ∧
      (x.dir.gpaDir (r.start + alignDown p (j - r.start))).isSome ∧
      release (2 ^ p) (r.start + alignDown p (j - r.start)) = true) := by
    intro j hj hj'
    rw [Rel, hgroup j hj hj']
    constructor
    · rintro ⟨-, s, o, heq, hrest⟩
      obtain ⟨rfl, rfl⟩ := Prod.mk.inj (Option.some.inj heq)
      rwa [hp] at hrest
    · intro hrest
      refine ⟨by omega, _, _, rfl, ?_⟩
      rwa [hp]
  have hinside : ∀ j, r.start ≤ j → j < r.finish →
      alignDown p (j - r.start) + 2 ^ p ≤ r.finish - r.start := by
    intro j hj hj'
    have hle := alignDown_le p (j - r.start)
    exact add_le_of_dvd_of_lt (dvd_alignDown p (j - r.start)) hwhole (by omega)
  by_cases hmeet : idxEnd ≤ r.start ∨ r.finish ≤ idxStart
  · have hskip : freeGpaDirRegion release idxStart idxEnd x r = x := if_pos hmeet
    rw [hskip]
    refine swept_refl x fun j hj => ?_
    have hin := hinside j hj.1.1 hj.1.2
    have hbounds := (hrel j hj.1.1 hj.1.2).mp hj.2
    omega
  rw [not_or, not_le, not_le] at hmeet
  -- the walk starts and ends on the grid of the region
  obtain ⟨start, finish, fuel, hstart, hdvd, hfinish, hfuel, hbounds, heq⟩ :
      ∃ start finish fuel, r.start ≤ start ∧ 2 ^ p ∣ start - r.start ∧ finish ≤ r.finish ∧
        finish ≤ start + fuel ∧
        (∀ b, 2 ^ p ∣ b → r.start + b < r.finish →
          (start ≤ r.start + b ↔ idxStart < r.start + b + 2 ^ p) ∧
          (r.start + b < finish ↔ r.start + b < idxEnd)) ∧
        freeGpaDirRegion release idxStart idxEnd x r =
          freeGpaDirLoop (release (2 ^ p)) (2 ^ p) finish fuel start x := by
    have hwalk : ¬ (idxEnd ≤ r.start ∨ r.finish ≤ idxStart) := by omega
    simp only [freeGpaDirRegion, hp, if_neg hwalk]
    refine ⟨_, _, _, ?_, ?_, ?_, ?_, fun b hb hbr => ⟨?_, ?_⟩, rfl⟩
    · split_ifs <;> omega
    · split_ifs
      · rw [Nat.add_sub_cancel_left]
        exact dvd_alignDown _ _
      · rw [Nat.sub_self]
        exact dvd_zero _
    · split_ifs with hcut
      · have hle := alignDown_le p (idxEnd - r.start + 2 ^ p - 1)
        by_contra hno
        have hover := add_le_of_dvd_of_lt hwhole (dvd_alignDown p (idxEnd - r.start + 2 ^ p - 1))
          (by omega)
        omega
      · exact le_rfl
    · omega
    · rw [← walkStart_iff hb]
      split_ifs <;> omega
    · rw [← walkEnd_iff hb hmeet.1 hbr]
      split_ifs <;> omega
  rw [heq]
  refine (swept_freeGpaDirLoop hpos hfuel).congr fun j => ?_
  constructor
  · rintro ⟨b, hsb, hbf, hdvdb, hbj, hjb, hsome, hr⟩
    have hgrid : 2 ^ p ∣ b - r.start := by
      have h := Nat.dvd_add hdvdb hdvd
      have hsum : b - start + (start - r.start) = b - r.start := by omega
      rwa [hsum] at h
    have hlast := add_le_of_dvd_of_lt hgrid hwhole (by omega)
    have hhead : b = r.start + alignDown p (j - r.start) := by
      have hsame : (j - r.start) / 2 ^ p = (b - r.start) / 2 ^ p :=
        (div_eq_iff_of_dvd hgrid).mpr ⟨by omega, by omega⟩
      rw [alignDown_congr hsame, alignDown_of_dvd hgrid]
      omega
    obtain ⟨hb₁, hb₂⟩ := hbounds (b - r.start) hgrid (by omega)
    have hjr : r.start ≤ j ∧ j < r.finish := by omega
    refine ⟨hjr, (hrel j hjr.1 hjr.2).mpr ?_⟩
    rw [← hhead]
    rw [Nat.add_sub_cancel' (hstart.trans hsb)] at hb₁ hb₂
    exact ⟨hb₂.mp hbf, hb₁.mp hsb, hsome, hr⟩
  · rintro ⟨hjr, hj⟩
    obtain ⟨hlt, hidx, hsome, hr⟩ := (hrel j hjr.1 hjr.2).mp hj
    have hle := alignDown_le p (j - r.start)
    have hup := lt_alignDown_add p (j - r.start)
    obtain ⟨hb₁, hb₂⟩ := hbounds _ (dvd_alignDown p (j - r.start)) (by omega)
    refine ⟨r.start + alignDown p (j - r.start), hb₁.mpr hidx, hb₂.mpr hlt, ?_, by omega, by omega,
      hsome, hr⟩
    have h := Nat.dvd_sub (dvd_alignDown p (j - r.start)) hdvd
    have hsub : alignDown p (j - r.start) - (start - r.start) =
        r.start + alignDown p (j - r.start) - start := by omega
    rwa [hsub] at h

theorem Rel.congr {release : ℕ → ℕ → Bool} {idxStart idxEnd j : ℕ}
    (hb : y.dir.backing = x.dir.backing)
    (hdir : ∀ s o, x.dir.backing.groupAt j = some (s, o) → y.dir.gpaDir s = x.dir.gpaDir s) :
    y.Rel release idxStart idxEnd j ↔ x.Rel release idxStart idxEnd j := by
  simp only [Rel, hb]
  constructor
  · rintro ⟨hlen, s, o, hat, hs, hs', hsome, hr⟩
    exact ⟨hlen, s, o, hat, hs, hs', hdir s o hat ▸ hsome, hr⟩
  · rintro ⟨hlen, s, o, hat, hs, hs', hsome, hr⟩
    exact ⟨hlen, s, o, hat, hs, hs', (hdir s o hat).symm ▸ hsome, hr⟩

/-- The walk of all regions of a list. -/
theorem swept_regions {release : ℕ → ℕ → Bool} {idxStart idxEnd : ℕ} {l : List GpadescRegion}
    (hm : x.dir.backing.Valid) (hl : x.dir.backing.LowMemoryAligned)
    (hend : idxEnd ≤ x.dir.backing.gpaLen) (hmem : ∀ r ∈ l, r ∈ x.dir.backing.setGpadescRegions)
    (hnodup : l.Nodup) : x.Swept (l.foldl (freeGpaDirRegion release idxStart idxEnd) x) fun j =>
      (∃ r ∈ l, r.start ≤ j ∧ j < r.finish) ∧ x.Rel release idxStart idxEnd j := by
  induction l generalizing x with
  | nil => exact swept_refl x fun j ⟨⟨r, hr, _⟩, _⟩ => by cases hr
  | cons r l ih =>
      have hr := hmem r (List.mem_cons_self ..)
      have hl' := List.nodup_cons.mp hnodup
      have hone : x.Swept (freeGpaDirRegion release idxStart idxEnd x r) _ :=
        swept_freeGpaDirRegion hm hl hend hr
      have hb : (freeGpaDirRegion release idxStart idxEnd x r).dir.backing = x.dir.backing := by
        rw [hone.place]
      have hrest := ih (x := freeGpaDirRegion release idxStart idxEnd x r) (by rwa [hb])
        (by rwa [hb]) (by rwa [hb]) (by rw [hb]; exact fun r' h => hmem r' (List.mem_cons_of_mem _ h))
        hl'.2
      -- a group lies in one region
      have hother : ∀ j, (∃ r' ∈ l, r'.start ≤ j ∧ j < r'.finish) → ¬ (r.start ≤ j ∧ j < r.finish) := by
        rintro j ⟨r', hr', hj'⟩ hj
        have heq := Backing.eq_of_mem_both hr (hmem r' (List.mem_cons_of_mem _ hr')) hj hj'
        exact hl'.1 (heq ▸ hr')
      have hsame : ∀ j, (∃ r' ∈ l, r'.start ≤ j ∧ j < r'.finish) →
          ((freeGpaDirRegion release idxStart idxEnd x r).Rel release idxStart idxEnd j ↔
            x.Rel release idxStart idxEnd j) := by
        intro j hj
        by_cases hlen : j < x.dir.backing.gpaLen
        · refine Rel.congr hb fun s o hat => (hone.outside s fun hs => ?_).1
          obtain ⟨r', hr', hj'⟩ := hj
          have hmem' := hmem r' (List.mem_cons_of_mem _ hr')
          obtain ⟨-, -, hgroup⟩ := Backing.region_onGrid hm hl hmem' (by omega)
          obtain ⟨rfl, -⟩ : r'.start + alignDown (r'.allocOrder - x.dir.backing.sbOrder)
              (j - r'.start) = s ∧ r'.allocOrder = o := by
            simpa using (hgroup j hj'.1 hj'.2).symm.trans hat
          have hle := alignDown_le (r'.allocOrder - x.dir.backing.sbOrder) (j - r'.start)
          exact hother _ ⟨r', hr', by omega, by omega⟩ hs.1
        · exact iff_of_false (fun h => hlen (hb ▸ h.1)) fun h => hlen h.1
      refine (hone.append hrest fun j hj hj' => hother j hj'.1 hj.1).congr fun j => ?_
      simp only [List.mem_cons, exists_eq_or_imp]
      constructor
      · rintro (⟨hj, hrel⟩ | ⟨hj, hrel⟩)
        · exact ⟨.inl hj, hrel⟩
        · exact ⟨.inr hj, (hsame j hj).mp hrel⟩
      · rintro ⟨hj | hj, hrel⟩
        · exact .inl ⟨hj, hrel⟩
        · exact .inr ⟨hj, (hsame j hj).mpr hrel⟩

/-- The walk of the directory. -/
theorem swept_walk {release : ℕ → ℕ → Bool} {idxStart idxEnd : ℕ} (hm : x.dir.backing.Valid)
    (hl : x.dir.backing.LowMemoryAligned) (hend : idxEnd ≤ x.dir.backing.gpaLen) :
    x.Swept (x.dir.backing.setGpadescRegions.foldl (freeGpaDirRegion release idxStart idxEnd) x)
      (x.Rel release idxStart idxEnd) := by
  refine (swept_regions hm hl hend (fun _ => id) (Backing.nodup_setGpadescRegions _)).congr
    fun j => and_iff_right_of_imp fun hrel => ?_
  obtain ⟨r, hr⟩ := Backing.exists_getGpadescRegion hrel.1
  obtain ⟨hle, hlt, -⟩ := Backing.getGpadescRegion_spec hr
  exact ⟨r, List.mem_of_find?_eq_some hr, hle, hlt⟩

/-! ### The directory behind a walk -/

section Walk

variable {release : ℕ → ℕ → Bool} {idxStart idxEnd : ℕ}

/-- A slot and the first one of its group are populated together. -/
theorem isSome_groupStart (h : x.dir.Inv) {j s o : ℕ} (hlen : j < x.dir.backing.gpaLen)
    (hat : x.dir.backing.groupAt j = some (s, o)) :
    (x.dir.gpaDir s).isSome ↔ (x.dir.gpaDir j).isSome := by
  obtain ⟨s', o', hat', hle, hlt, hgroup⟩ := Backing.groupAt_spec h.valid hlen
  obtain ⟨rfl, rfl⟩ : s' = s ∧ o' = o := by simpa using hat'.symm.trans hat
  have hpos := Nat.two_pow_pos (o' - x.dir.backing.sbOrder)
  obtain ⟨hslen, hsat⟩ := hgroup s' le_rfl (by omega)
  constructor
  · intro hs
    by_contra hno
    have hnone := h.empty hat hlen (by simpa using hno) le_rfl (by omega : s' < _)
    rw [hnone] at hs
    cases hs
  · intro hj
    by_contra hno
    have hnone := h.empty hsat hslen (by simpa using hno) hle hlt
    rw [hnone] at hj
    cases hj

/-- Only populated slots are released. -/
theorem Rel.isSome {j : ℕ} (hrel : x.Rel release idxStart idxEnd j) (h : x.dir.Inv) :
    (x.dir.gpaDir j).isSome := by
  obtain ⟨hlen, s, o, hat, -, -, hsome, -⟩ := hrel
  exact (isSome_groupStart h hlen hat).mp hsome

/-- The slots of a group are released together, so the directory stays sound. -/
theorem inv_of_swept (h : x.dir.Inv) (hs : x.Swept y (x.Rel release idxStart idxEnd)) :
    y.dir.Inv := by
  have hb : y.dir.backing = x.dir.backing := by rw [hs.place]
  have hgroup : y.dir.group = x.dir.group := by rw [hs.place]
  have hsize : y.dir.gpaSize = x.dir.gpaSize := by rw [hs.place]
  refine ⟨hb ▸ h.valid, hsize ▸ h.pos, fun id g hg => ?_, fun i t ht => ?_⟩
  · rw [hgroup] at hg
    obtain ⟨hgb, hgs, hp, hgeo⟩ := h.group id g hg
    exact ⟨hgb.trans hb.symm, hgs.trans hsize.symm, hp, hgeo⟩
  · have hno : ¬ x.Rel release idxStart idxEnd i := by
      intro hrel
      rw [(hs.inside i hrel).1] at ht
      cases ht
    rw [(hs.outside i hno).1] at ht
    obtain ⟨hlen, g, hg, hat, hall⟩ := h.slot i t ht
    rw [hb, hgroup]
    refine ⟨hlen, g, hg, hat, fun j hj hj' => ?_⟩
    have hjdir := hall j hj hj'
    obtain ⟨hjlen, -, hjat, -⟩ := h.range (Directory.gpaAt_eq_some.mpr ⟨hjdir, hg⟩)
    rw [(hs.outside j fun hrel => hno ?_).1]
    · exact hjdir
    · obtain ⟨-, s, o, hsat, hrest⟩ := hrel
      exact ⟨hlen, s, o, hat.trans (hjat.symm.trans hsat), hrest⟩

/-- Nothing is left when everything is released. -/
theorem empty_of_swept (h : x.dir.Inv)
    (hs : x.Swept y (x.Rel (fun _ _ => true) 0 x.dir.backing.gpaLen)) (i : ℕ) :
    y.dir.gpaDir i = none := by
  by_cases hrel : x.Rel (fun _ _ => true) 0 x.dir.backing.gpaLen i
  · exact (hs.inside i hrel).1
  · rw [(hs.outside i hrel).1]
    by_contra hpop
    obtain ⟨t, ht⟩ := Option.ne_none_iff_exists'.mp hpop
    obtain ⟨hlen, g, hg, hat, -⟩ := h.slot i t ht
    obtain ⟨s, o, hat, hle, hlt', -⟩ := Backing.groupAt_spec h.valid hlen
    have hpop' : (x.dir.gpaDir i).isSome := by
      rw [ht]
      rfl
    exact hrel ⟨hlen, s, o, hat, hle.trans_lt hlen, Nat.zero_lt_of_lt hlt',
      (isSome_groupStart h hlen hat).mpr hpop', rfl⟩

end Walk

/-! ### What holds over the life of a vmdesc -/

/-- The directory is sound, the view list accounts for the vmrs, which view parts of the
backing, and every slot has been released as often as it has been populated, but for the
populated ones. -/
structure Inv (x : VmdescDir) : Prop where
  dir : x.dir.Inv
  low : x.dir.backing.LowMemoryAligned
  base : x.desc.vmBase = x.dir.backing.vmBase
  accounts : x.desc.Accounts x.vmrs
  inside : ∀ v ∈ x.vmrs, Inside x.dir.backing v
  made : ∀ i, x.made i = x.removed i + if (x.dir.gpaDir i).isSome then 1 else 0

/-- A vmdesc that `mmap` or a fork has made with one vmr; the slots of a group are populated
together. -/
structure Start (x : VmdescDir) : Prop where
  dir : x.dir.Inv
  low : x.dir.backing.LowMemoryAligned
  view : ∃ v, Inside x.dir.backing v ∧ x.vmrs = [v] ∧
    x.desc = (Vmdesc.mk x.dir.backing.vmBase 1 ViewList.empVmdescViewInit).addView v false true
  removed : ∀ i, x.removed i = 0
  made : ∀ i, x.made i = if (x.dir.gpaDir i).isSome then 1 else 0

/-- The close as the surviving vmrs see it. -/
structure CloseOk (x y : VmdescDir) (v : Vmr) : Prop where
  /-- A slot that a surviving view meets stays. -/
  kept : ∀ i, (∃ w ∈ y.vmrs, x.Meets i 1 w) →
    y.dir.gpaDir i = x.dir.gpaDir i ∧ y.removed i = x.removed i
  /-- A group inside the closing view that no surviving view meets is released. -/
  released : ∀ i s o, i < x.dir.backing.gpaLen → x.dir.backing.groupAt i = some (s, o) →
    (x.dir.gpaDir i).isSome → x.desc.viewStart v ≤ s * x.sbSize →
    (s + 2 ^ (o - x.dir.backing.sbOrder)) * x.sbSize ≤ x.desc.viewEnd v →
    (∀ w ∈ y.vmrs, ¬ x.Meets s (2 ^ (o - x.dir.backing.sbOrder)) w) →
    y.dir.gpaDir i = none ∧ y.removed i = x.removed i + 1
  /-- The last close leaves no slot, each released as often as it was populated. -/
  last : y.vmrs = [] → ∀ i, y.dir.gpaDir i = none ∧ y.removed i = y.made i

/-- The entries of the view list are the views of the vmrs. -/
theorem exists_view_iff {d : Vmdesc} {vs : List Vmr} (h : d.Accounts vs) (P : ℕ → ℕ → Prop) :
    (∃ v ∈ d.views.head :: d.views.next, 0 < v.count ∧ P v.start v.finish) ↔
      ∃ w ∈ vs, P (d.viewStart w) (d.viewEnd w) := by
  constructor
  · rintro ⟨v, hv, hpos, hP⟩
    have hunit := (ViewList.mem_units_iff h.wellFormed).mpr ⟨v, hv, hpos, rfl, rfl⟩
    obtain ⟨w, hw, heq⟩ := List.mem_map.mp (h.intervals.mem_iff.mp hunit)
    obtain ⟨hs, hf⟩ := Prod.mk.inj (toLex_inj.mp heq)
    rw [← hs, ← hf] at hP
    exact ⟨w, hw, hP⟩
  · rintro ⟨w, hw, hP⟩
    have hunit := h.intervals.mem_iff.mpr (List.mem_map_of_mem hw)
    obtain ⟨v, hv, hpos, hs, hf⟩ := (ViewList.mem_units_iff h.wellFormed).mp hunit
    rw [← hs, ← hf] at hP
    exact ⟨v, hv, hpos, hP⟩

/-- A page that the view list covers is in the view of a vmr. -/
theorem covered_iff {d : Vmdesc} {vs : List Vmr} (h : d.Accounts vs) (p : ℕ) :
    ViewList.Covered (d.views.head :: d.views.next) p ↔
      ∃ w ∈ vs, d.viewStart w ≤ p ∧ p < d.viewEnd w :=
  exists_view_iff h fun start finish => start ≤ p ∧ p < finish

/-- A range that the view list covers a part of meets the view of a vmr. -/
theorem isCovered_iff {d : Vmdesc} {vs : List Vmr} (h : d.Accounts vs) (start finish : ℕ) :
    d.views.isCovered start finish = true ↔
      ∃ w ∈ vs, d.viewStart w < finish ∧ start < d.viewEnd w := by
  rw [ViewList.isCovered, ViewList.coveredFrom_iff (ViewList.pairwise_start h.wellFormed)]
  exact exists_view_iff h fun s f => s < finish ∧ start < f

/-! ### A close -/

/-- The vmdesc without the vmr that closes, before the walk. -/
def detach (x : VmdescDir) (v : Vmr) : VmdescDir :=
  { x with desc := (x.desc.delView v).put, vmrs := x.vmrs.erase v }

theorem accounts_detach (h : x.Inv) (hv : v ∈ x.vmrs) :
    (x.detach v).desc.Accounts (x.vmrs.erase v) :=
  Vmdesc.accounts_delView (h.accounts.perm (List.perm_cons_erase hv))

/-- The view of a vmr does not end behind the directory. -/
theorem viewEnd_le (h : x.desc.vmBase = x.dir.backing.vmBase) (hin : Inside x.dir.backing v) :
    (x.desc.viewEnd v + x.sbSize - 1) / x.sbSize ≤ x.dir.backing.gpaLen := by
  have hpos := Nat.two_pow_pos x.dir.backing.sbOrder
  have hbase := x.dir.backing.vmBase_le
  obtain ⟨hlow, hlt, hhigh⟩ := hin
  rw [Vmdesc.viewEnd, sbSize, h, Backing.gpaLen, Backing.sbEnd]
  have hsub : v.vmEnd - x.dir.backing.vmBase + 2 ^ x.dir.backing.sbOrder - 1 =
      v.vmEnd + 2 ^ x.dir.backing.sbOrder - 1 -
        2 ^ x.dir.backing.sbOrder * x.dir.backing.sbStart := by
    rw [Backing.vmBase, mul_comm] at hbase ⊢
    omega
  rw [hsub, Nat.sub_mul_div]
  exact Nat.sub_le_sub_right (Nat.div_le_div_right (by omega)) _

/-- What the walk of a close releases. -/
theorem swept_close (h : x.Inv) (hv : v ∈ x.vmrs) :
    (x.vmrs.erase v ≠ [] ∧ (x.detach v).Swept (x.closeAndFreeGpas v)
      ((x.detach v).Rel ((x.detach v).releases v) (x.desc.viewStart v / x.sbSize)
        ((x.desc.viewEnd v + x.sbSize - 1) / x.sbSize))) ∨
    (x.vmrs.erase v = [] ∧ (x.detach v).Swept (x.closeAndFreeGpas v)
      ((x.detach v).Rel (fun _ _ => true) 0 x.dir.backing.gpaLen)) := by
  have hcount : (x.detach v).desc.refcount = (x.vmrs.erase v).length := (accounts_detach h hv).refcount
  by_cases hlast : x.vmrs.erase v = []
  · have hzero : ¬ 0 < (x.detach v).desc.refcount := by
      rw [hcount, hlast, List.length_nil]
      exact lt_irrefl 0
    have heq : x.closeAndFreeGpas v = _ := if_neg hzero
    rw [heq]
    exact .inr ⟨hlast, swept_walk h.dir.valid h.low le_rfl⟩
  · have hpos : 0 < (x.detach v).desc.refcount := by
      rw [hcount]
      exact List.length_pos_of_ne_nil hlast
    have heq : x.closeAndFreeGpas v = _ := if_pos hpos
    have hend := viewEnd_le h.base (h.inside v hv)
    rw [heq]
    exact .inl ⟨hlast, swept_walk h.dir.valid h.low hend⟩

/-- A view is not empty. -/
theorem viewStart_lt_viewEnd (h : x.Inv) (hv : v ∈ x.vmrs) : x.desc.viewStart v < x.desc.viewEnd v := by
  obtain ⟨hlow, hlt, -⟩ := h.inside v hv
  have hbase := x.dir.backing.vmBase_le
  rw [Vmdesc.viewStart, Vmdesc.viewEnd, h.base]
  omega

/-- Rounding inward to whole subblocks. -/
theorem roundInward_iff {S start finish lo hi : ℕ} (hS : 0 < S) :
    ((start + S - 1) / S ≤ lo ∧ hi ≤ finish / S) ↔ (start ≤ lo * S ∧ hi * S ≤ finish) := by
  rw [Nat.div_le_iff_le_mul_add_pred hS, Nat.le_div_iff_mul_le hS, mul_comm lo]
  omega

/-- Which groups are released while other vmrs stay: those whose pages are all in the uncovered
range, or else those that meet no view. -/
theorem releases_iff {n s : ℕ} : x.releases v n s = true ↔
    match x.desc.views.findUncovered (x.desc.viewStart v) (x.desc.viewEnd v) with
    | some (start, finish) => start < finish ∧ start ≤ s * x.sbSize ∧ (s + n) * x.sbSize ≤ finish
    | none => x.desc.views.isCovered (s * x.sbSize) ((s + n) * x.sbSize) = false := by
  rw [releases]
  cases hfound : x.desc.views.findUncovered (x.desc.viewStart v) (x.desc.viewEnd v) with
  | none => simp
  | some range =>
      have hround : ((range.1 + x.sbSize - 1) / x.sbSize ≤ s ∧ s + n ≤ range.2 / x.sbSize) ↔
          (range.1 ≤ s * x.sbSize ∧ (s + n) * x.sbSize ≤ range.2) :=
        roundInward_iff (Nat.two_pow_pos _)
      simp only [← hround]
      split_ifs with hne
      · simp [hne]
      · simp [hne]

/-- A group that is released while other vmrs stay is met by none of their views. -/
theorem not_meets_of_releases (h : x.Inv) (hv : v ∈ x.vmrs) {w : Vmr} (hw : w ∈ x.vmrs.erase v)
    {n s j : ℕ} (hj : s ≤ j) (hj' : j < s + n) (hrel : (x.detach v).releases v n s = true) :
    ¬ x.Meets j 1 w := by
  intro ⟨hstart, hend⟩
  have hacc := accounts_detach h hv
  have hlt := viewStart_lt_viewEnd h (List.mem_of_mem_erase hw)
  have hlow : s * x.sbSize ≤ j * x.sbSize := Nat.mul_le_mul_right _ hj
  have hhigh : (j + 1) * x.sbSize ≤ (s + n) * x.sbSize := Nat.mul_le_mul_right _ hj'
  rw [releases_iff] at hrel
  split at hrel
  · rename_i start finish hfound
    obtain ⟨-, hs, hf⟩ : start < finish ∧ start ≤ s * x.sbSize ∧ (s + n) * x.sbSize ≤ finish := hrel
    -- the first page that the subblock and the view share
    obtain ⟨p, hp⟩ : ∃ p, j * x.sbSize ≤ p ∧ p < (j + 1) * x.sbSize ∧
        x.desc.viewStart w ≤ p ∧ p < x.desc.viewEnd w := by
      have hne : j * x.sbSize < (j + 1) * x.sbSize :=
        Nat.mul_lt_mul_of_pos_right (Nat.lt_succ_self j) (Nat.two_pow_pos _)
      by_cases hle : x.desc.viewStart w ≤ j * x.sbSize
      · exact ⟨j * x.sbSize, le_rfl, hne, hle, hend⟩
      · exact ⟨x.desc.viewStart w, by omega, hstart, le_rfl, hlt⟩
    have hin := (ViewList.uncoveredFrom_spec (ViewList.pairwise_start hacc.wellFormed) hfound p).mp
      ⟨by omega, by omega⟩
    exact hin.2.2 ((covered_iff hacc p).mpr ⟨w, hw, hp.2.2⟩)
  · have hcov := (isCovered_iff hacc (s * x.sbSize) ((s + n) * x.sbSize)).mpr
      ⟨w, hw, lt_of_lt_of_le hstart hhigh, lt_of_le_of_lt hlow hend⟩
    exact absurd (hrel.symm.trans hcov) Bool.false_ne_true

/-- A group inside the closing view that no surviving view meets is released. -/
theorem releases_of_not_meets (h : x.Inv) (hv : v ∈ x.vmrs) {n s : ℕ} (hn : 0 < n)
    (hs : x.desc.viewStart v ≤ s * x.sbSize) (hf : (s + n) * x.sbSize ≤ x.desc.viewEnd v)
    (hw : ∀ w ∈ x.vmrs.erase v, ¬ x.Meets s n w) : (x.detach v).releases v n s = true := by
  have hacc := accounts_detach h hv
  have hne : s * x.sbSize < (s + n) * x.sbSize :=
    Nat.mul_lt_mul_of_pos_right (by omega) (Nat.two_pow_pos _)
  rw [releases_iff]
  split
  · rename_i start finish hfound
    -- the first and the last page of the group are uncovered
    have huncovered : ∀ p, s * x.sbSize ≤ p → p < (s + n) * x.sbSize → start ≤ p ∧ p < finish := by
      intro p hp hp'
      refine (ViewList.uncoveredFrom_spec (ViewList.pairwise_start hacc.wellFormed) hfound p).mpr
        ⟨hs.trans hp, hp'.trans_le hf, fun hcov => ?_⟩
      obtain ⟨w, hmem, hle, hlt⟩ := (covered_iff hacc p).mp hcov
      exact hw w hmem ⟨lt_of_le_of_lt hle hp', lt_of_le_of_lt hp hlt⟩
    have hfirst := huncovered (s * x.sbSize) le_rfl hne
    have hlast := huncovered ((s + n) * x.sbSize - 1) (by omega) (by omega)
    exact ⟨by omega, hfirst.1, show (s + n) * x.sbSize ≤ finish by omega⟩
  · by_contra hno
    obtain ⟨w, hmem, hle, hlt⟩ := (isCovered_iff hacc _ _).mp (Bool.eq_true_of_not_eq_false hno)
    exact hw w hmem ⟨hle, hlt⟩

/-- A close releases populated slots only, each once. -/
theorem inv_of_close (h : x.Inv) (hv : v ∈ x.vmrs) : (x.closeAndFreeGpas v).Inv := by
  have hswept : ∃ release idxStart idxEnd, (x.detach v).Swept (x.closeAndFreeGpas v)
      ((x.detach v).Rel release idxStart idxEnd) := by
    rcases swept_close h hv with ⟨-, hs⟩ | ⟨-, hs⟩
    · exact ⟨_, _, _, hs⟩
    · exact ⟨_, _, _, hs⟩
  obtain ⟨release, idxStart, idxEnd, hs⟩ := hswept
  have hdir := inv_of_swept (x := x.detach v) h.dir hs
  have hsome := fun j (hj : (x.detach v).Rel release idxStart idxEnd j) => hj.isSome h.dir
  generalize x.closeAndFreeGpas v = y at hs hdir
  have hplace := hs.place
  have hb : y.dir.backing = x.dir.backing := by rw [hplace]; rfl
  have hdesc : y.desc = (x.detach v).desc := by rw [hplace]
  have hvmrs : y.vmrs = x.vmrs.erase v := by rw [hplace]; rfl
  have hmade : y.made = x.made := by rw [hplace]; rfl
  refine ⟨hdir, hb ▸ h.low, ?_, ?_, ?_, fun i => ?_⟩
  · rw [hdesc, hb]
    exact h.base
  · rw [hdesc, hvmrs]
    exact accounts_detach h hv
  · rw [hb, hvmrs]
    exact fun w hw => h.inside w (List.mem_of_mem_erase hw)
  · rw [hmade, h.made i]
    by_cases hrel : (x.detach v).Rel release idxStart idxEnd i
    · obtain ⟨hnone, hrem⟩ := hs.inside i hrel
      have hpop : (x.dir.gpaDir i).isSome := hsome i hrel
      rw [hrem, hnone, if_pos hpop]
      rfl
    · obtain ⟨heq, hrem⟩ := hs.outside i hrel
      rw [hrem, heq]
      rfl

/-- What a close does. -/
theorem closeOk_close (h : x.Inv) (hv : v ∈ x.vmrs) : CloseOk x (x.closeAndFreeGpas v) v := by
  have hinv := inv_of_close h hv
  have hclose := swept_close h hv
  generalize x.closeAndFreeGpas v = y at hinv hclose
  have hvmrs : y.vmrs = x.vmrs.erase v := by
    rcases hclose with ⟨-, hs⟩ | ⟨-, hs⟩
    · rw [hs.place]; rfl
    · rw [hs.place]; rfl
  rcases hclose with ⟨hmore, hs⟩ | ⟨hlast, hs⟩
  · refine ⟨fun i ⟨w, hw, hmeet⟩ => ?_, fun i s o hlen hat hpop hlow hhigh hno => ?_, fun hnil => ?_⟩
    · refine hs.outside i fun ⟨hlen, s, o, hat, _, _, _, hrel⟩ => ?_
      obtain ⟨s', o', hat', hle, hlt, -⟩ := Backing.groupAt_spec h.dir.valid hlen
      obtain ⟨rfl, rfl⟩ : s' = s ∧ o' = o := by simpa using hat'.symm.trans hat
      exact not_meets_of_releases h hv (hvmrs ▸ hw) hle hlt hrel hmeet
    · -- the walk comes upon the group, which lies in the view
      have hn := Nat.two_pow_pos (o - x.dir.backing.sbOrder)
      have hfirst : x.desc.viewStart v / x.sbSize ≤ s := Nat.div_le_of_le_mul (mul_comm _ s ▸ hlow)
      have hlast : s + 2 ^ (o - x.dir.backing.sbOrder) ≤ x.desc.viewEnd v / x.sbSize :=
        (Nat.le_div_iff_mul_le (Nat.two_pow_pos _)).mpr hhigh
      have hround : x.desc.viewEnd v / x.sbSize ≤ (x.desc.viewEnd v + x.sbSize - 1) / x.sbSize :=
        Nat.div_le_div_right (Nat.le_sub_one_of_lt (Nat.lt_add_of_pos_right (Nat.two_pow_pos _)))
      refine hs.inside i ⟨hlen, s, o, hat, by omega, ?_, (isSome_groupStart h.dir hlen hat).mpr hpop, ?_⟩
      · exact lt_of_le_of_lt hfirst (Nat.lt_add_of_pos_right hn)
      · exact releases_of_not_meets h hv hn hlow hhigh (hvmrs ▸ hno)
    · exact absurd (hvmrs ▸ hnil) hmore
  · have hgone : ∀ i, y.dir.gpaDir i = none := empty_of_swept (x := x.detach v) h.dir hs
    refine ⟨fun i ⟨w, hw, _⟩ => ?_, fun i s o hlen hat hpop _ _ _ => ?_, fun _ i => ⟨hgone i, ?_⟩⟩
    · rw [hvmrs, hlast] at hw
      cases hw
    · by_cases hrel : (x.detach v).Rel (fun _ _ => true) 0 x.dir.backing.gpaLen i
      · exact hs.inside i hrel
      · have hsame := (hs.outside i hrel).1
        rw [hgone i] at hsame
        rw [show x.dir.gpaDir i = none from hsame.symm] at hpop
        cases hpop
    · have hmade := hinv.made i
      rw [hgone i] at hmade
      exact hmade.symm

/-! ### Runs -/

/-- Populating slots. -/
theorem inv_populate {d d' : Directory} (h : x.Inv) (hk : x.dir.Kept d') (heq : d.backing = d'.backing)
    (hslots : d.gpaDir = d'.gpaDir) (hd : d.Inv) : (x.populate d).Inv := by
  have hb : d.backing = x.dir.backing := heq.trans hk.backing
  refine ⟨hd, hb.symm ▸ h.low, hb.symm ▸ h.base, h.accounts, ?_, fun i => ?_⟩
  · intro v hv
    have hin := h.inside v hv
    rwa [← hb] at hin
  · have hmade := h.made i
    have hpop := hk.populated i
    simp only [populate, hslots]
    cases hold : x.dir.gpaDir i with
    | none =>
        rw [hold] at hmade
        cases hnew : d'.gpaDir i with
        | none => simpa using hmade
        | some t => simpa using hmade
    | some t =>
        rw [hold] at hmade hpop
        have hsome := hpop rfl
        simpa [hsome] using hmade

theorem inv_of_start (h : x.Start) : x.Inv := by
  obtain ⟨v, hin, hvmrs, hdesc⟩ := h.view
  refine ⟨h.dir, h.low, ?_, ?_, fun w hw => ?_, fun i => ?_⟩
  · rw [hdesc]
    rfl
  · rw [hdesc, hvmrs]
    exact Vmdesc.accounts_new _ v
  · rw [hvmrs, List.mem_singleton] at hw
    exact hw ▸ hin
  · rw [h.removed, h.made, Nat.zero_add]

/-- What every step keeps. -/
theorem inv_of_step {e : VmdescEvent} (h : x.Inv) (hs : step x e = some y) : y.Inv := by
  cases e with
  | dir e =>
      have hdir : ∃ d, x.dir.step e = some d ∧ x.populate d = y ∧
          ∀ vma addr newIsFront alloc, e ≠ .split vma addr newIsFront alloc := by
        cases e with
        | split => cases hs
        | _ =>
            simp only [step, Option.ite_none_left_eq_some, Option.map_eq_some_iff] at hs
            obtain ⟨-, d, hd, rfl⟩ := hs
            exact ⟨d, hd, rfl, nofun⟩
      obtain ⟨d, hd, rfl, hne⟩ := hdir
      rcases Directory.kept_of_step h.dir hd with hk | ⟨vma, addr, newIsFront, alloc, rfl⟩
      · exact inv_populate h hk rfl rfl hk.inv
      · exact absurd rfl (hne vma addr newIsFront alloc)
  | attach v firstOrShared =>
      obtain ⟨⟨-, hin, hshared⟩, rfl⟩ := Transition.of_guard hs
      refine ⟨h.dir, h.low, h.base, Vmdesc.accounts_addView h.accounts ?_, fun w hw => ?_, h.made⟩
      · cases firstOrShared with
        | false => exact .inr ⟨rfl, rfl⟩
        | true =>
            obtain ⟨w, hw, heq⟩ := hshared rfl
            refine .inl ⟨rfl, h.accounts.intervals.mem_iff.mpr ?_⟩
            exact heq ▸ List.mem_map_of_mem hw
      · rcases List.mem_cons.mp hw with rfl | hold
        · exact hin
        · exact h.inside w hold
  | split v addr newIsFront alloc =>
      simp only [step, Option.ite_none_right_eq_some, Option.map_eq_some_iff] at hs
      obtain ⟨hv, d, hd, rfl⟩ := hs
      obtain ⟨⟨hlow, hstart, hend, hhigh, havail⟩, rfl⟩ := Transition.of_guard hd
      obtain ⟨d₁, heq, hk⟩ : ∃ d₁, x.dir.splitVmdesc ⟨v.vmStart, v.vmEnd⟩ addr newIsFront alloc =
          { d₁ with cuts := addr :: d₁.cuts } ∧ x.dir.Kept d₁ :=
        Directory.kept_splitVmdesc h.dir havail
      rw [heq]
      obtain ⟨hdir, hlow', hbase, hacc, hin, hmade⟩ :=
        inv_populate (d := { d₁ with cuts := addr :: d₁.cuts }) h hk rfl rfl (hk.inv.record _)
      refine ⟨hdir, hlow', hbase, ?_, fun w hw => ?_, hmade⟩
      · exact Vmdesc.accounts_splitView (h.accounts.perm (List.perm_cons_erase hv)) ⟨rfl, rfl⟩
      · have hb : d₁.backing = x.dir.backing := hk.backing
        rcases List.mem_cons.mp hw with rfl | hw
        · exact ⟨hb ▸ hlow, hstart, hb ▸ hend.le.trans hhigh⟩
        rcases List.mem_cons.mp hw with rfl | hw
        · exact ⟨hb ▸ hlow.trans hstart.le, hend, hb ▸ hhigh⟩
        · exact hin w (List.mem_of_mem_erase hw)
  | close v =>
      obtain ⟨hv, rfl⟩ := Transition.of_guard hs
      exact inv_of_close h hv

/-- In any run in which vmrs are attached to the vmdesc, split and closed, a close keeps the slots
that a surviving view meets, releases the groups that lie in the closing view and are met by no
surviving one, and the last close has released every slot as often as it was populated. -/
theorem closeOk_of_reach (h : Transition.Reach Start step x) (hs : step x (.close v) = some y) :
    CloseOk x y v := by
  have hinv : x.Inv := h.invariant (fun _ => inv_of_start) fun _ _ _ hi _ => inv_of_step hi
  obtain ⟨hv, rfl⟩ := Transition.of_guard hs
  exact closeOk_close hinv hv

instance (x : VmdescDir) (i n : ℕ) (v : Vmr) : Decidable (x.Meets i n v) :=
  inferInstanceAs (Decidable (_ ∧ _))

/-- The vmr of a mapping of sixteen subblocks, which is not touched yet. -/
def wholeVmr : Vmr := ⟨0, 16, 80, 0, false, false⟩

def whole : VmdescDir :=
  ⟨Directory.untouched, (Vmdesc.mk 16 1 ViewList.empVmdescViewInit).addView wholeVmr false true,
    [wholeVmr], fun _ => 0, fun _ => 0⟩

theorem start_whole : whole.Start := by
  refine ⟨⟨⟨by decide, by decide⟩, by decide, nofun, nofun⟩, .inl rfl, ?_, fun _ => rfl, fun _ => rfl⟩
  exact ⟨wholeVmr, by decide, rfl, rfl⟩

/-- The groups of the subblocks 0 and 8 are touched, and the vma is split in the middle of the
second one; `closeBoth` closes one half after the other. -/
def halves : List VmdescEvent :=
  [.dir (.touch 0 (some (0, 1024))), .dir (.touch 8 (some (1, 2048))), .split wholeVmr 48 false none]

def closeBoth : List VmdescEvent := halves ++ [.close ⟨0, 16, 48, 0, false, false⟩]

theorem closeOk_closeBoth : ∃ x y, Transition.exec step whole closeBoth = some x ∧
    step x (.close ⟨0, 48, 80, 0, false, false⟩) = some y ∧
    CloseOk x y ⟨0, 48, 80, 0, false, false⟩ ∧ y.vmrs = [] ∧
    (List.range 16).map (fun i => (x.dir.gpaDir i).isSome) =
      (List.range 16).map (fun i => decide (4 ≤ i ∧ i < 12)) ∧
    (List.range 16).map y.removed = [1, 0, 0, 0] ++ List.replicate 8 1 ++ List.replicate 4 0 := by
  have hrun : ∀ x, Transition.exec step whole closeBoth = some x → Transition.Reach Start step x :=
    fun _ he => Transition.Reach.exec (.start start_whole) he
  exact ⟨_, _, rfl, rfl, closeOk_of_reach (hrun _ rfl) rfl, rfl, by decide, by decide⟩

/-- The group that the split has cut is released as a whole, by the second close: the first one
leaves the slots that only its view has covered. -/
theorem not_released_closeHalf : ∃ x y v i, Transition.Reach Start step x ∧
    step x (.close v) = some y ∧ (x.dir.gpaDir i).isSome ∧
    x.desc.viewStart v ≤ i * x.sbSize ∧ (i + 1) * x.sbSize ≤ x.desc.viewEnd v ∧
    (∀ w ∈ y.vmrs, ¬ x.Meets i 1 w) ∧ (y.dir.gpaDir i).isSome := by
  have hrun : ∀ x, Transition.exec step whole halves = some x → Transition.Reach Start step x :=
    fun _ he => Transition.Reach.exec (.start start_whole) he
  exact ⟨_, _, ⟨0, 16, 48, 0, false, false⟩, 4, hrun _ rfl, rfl, rfl, by decide, by decide, by decide, rfl⟩

end VmdescDir

end Emp
