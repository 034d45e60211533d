import Emp.Fork.Operations

/-!
# The walk of a fork

The slots of the child are slots of the parent.  The walk leaves none behind in the view it is on,
because it finds the next populated slot from an index that it has come to by stepping over copied
ones.  When the views of the fork cut no group, the child has whole groups in the end.

## Main definitions

* `Fills` — what a fork has done so far.
* `Fills.copied`, `Fills.whole` — one block, and the end of the walk.
-/

namespace Emp

namespace Backing

variable {m : Backing} {i j k : ℕ}

/-- The indexes between two of a group belong to the group. -/
theorem groupAt_between (hm : m.Valid) (hi : i < m.gpaLen) (hj : j < m.gpaLen)
    (h : m.groupAt i = m.groupAt j) (hik : i ≤ k) (hkj : k ≤ j) :
    k < m.gpaLen ∧ m.groupAt k = m.groupAt i := by
  obtain ⟨s, o, hat, hle, -, hall⟩ := groupAt_spec hm hi
  obtain ⟨s', o', hat', -, hlt, -⟩ := groupAt_spec hm hj
  obtain ⟨rfl, rfl⟩ : s = s' ∧ o = o' := by simpa using hat.symm.trans (h.trans hat')
  obtain ⟨hk, hkat⟩ := hall k (by omega) (by omega)
  exact ⟨hk, hkat.trans hat.symm⟩

/-- The group of the index meets one of the views. -/
def Reached (m : Backing) (vs : List Vmr) (i : ℕ) : Prop :=
  i < m.gpaLen ∧ ∃ j < m.gpaLen, m.groupAt j = m.groupAt i ∧ ∃ w ∈ vs, m.InView w j

theorem Reached.mono {vs vs' : List Vmr} (h : m.Reached vs i) (hsub : ∀ w ∈ vs, w ∈ vs') :
    m.Reached vs' i := by
  obtain ⟨hi, j, hj, hat, w, hw, hin⟩ := h
  exact ⟨hi, j, hj, hat, w, hsub w hw, hin⟩

theorem Reached.congr {vs : List Vmr} (h : m.Reached vs i) (hj : j < m.gpaLen)
    (hat : m.groupAt j = m.groupAt i) : m.Reached vs j := by
  obtain ⟨-, k, hk, hkat, hin⟩ := h
  exact ⟨hj, k, hk, hkat.trans hat.symm, hin⟩

/-- Indexes between one that is reached and the start of the view are reached. -/
theorem Reached.between {w : Vmr} (hm : m.Valid) (h : m.Reached [w] i) (hik : i ≤ k)
    (hk : k ≤ m.indexOf w.vmStart) : m.Reached [w] k := by
  obtain ⟨hi, j, hj, hat, w', hw', hin⟩ := h
  obtain rfl := List.mem_singleton.mp hw'
  obtain ⟨hklen, hkat⟩ := groupAt_between hm hi hj hat.symm hik (hk.trans hin.1)
  exact ⟨hklen, j, hj, hat.trans hkat.symm, w', hw', hin⟩

end Backing

/-- What lies behind the walk of the view of `w` is copied from `p` to `f`, and the walk is in a group
that the view meets. -/
def Behind (m : Backing) (p f : ℕ → Option Slot) (w : Vmr) : WalkPc → Prop
  | .find index => (∀ i, m.InView w i → i < index → (p i).isSome → (f i).isSome) ∧
      (index < m.indexOf w.vmStart → m.Reached [w] index)
  | .lock h => (∀ i, m.InView w i → i < h → (p i).isSome → (f i).isSome) ∧ m.Reached [w] h
  | .next h _ => (∀ i, m.InView w i → i < h → (p i).isSome → (f i).isSome) ∧ m.Reached [w] h

/-- What a fork has done so far: `p` and `f` are the slots of the parent and the child, and `vs` are
the vmrs of the child, the first of which is being walked. -/
structure Fills (m : Backing) (p f : ℕ → Option Slot) (vs : List Vmr) (t : ForkTask) : Prop where
  sub : ∀ i x, f i = some x → p i = some x
  reached : ∀ i x, f i = some x → m.Reached vs i
  uncut : ∀ i j, m.groupAt i = m.groupAt j → (p i).isSome → (∃ w ∈ vs ++ t.rest, m.InView w i) →
    ∃ w ∈ vs ++ t.rest, m.InView w j
  inside : ∀ w ∈ vs ++ t.rest, VmdescDir.Inside m w
  /-- the views that have been walked are copied, and so is what lies behind the walk -/
  views : ∃ w done, vs = w :: done ∧ t.indexEnd = m.indexEnd w.vmEnd ∧
    (∀ v ∈ done, ∀ i, m.InView v i → (p i).isSome → (f i).isSome) ∧ Behind m p f w t.pc

theorem viewStart_lt {m : Backing} {w : Vmr} (h : VmdescDir.Inside m w) :
    m.indexOf w.vmStart < m.indexEnd w.vmEnd :=
  Backing.indexOf_lt_indexEnd (m.vmBase_le.trans h.1) h.2.1

namespace Fills

variable {m : Backing} {p f : ℕ → Option Slot} {vs : List Vmr} {t : ForkTask} {h index : ℕ}

/-- The walk has found a head. -/
theorem find (hf : Fills m p f vs t) (hm : m.Valid) (hlen : ∀ i, (p i).isSome → i < m.gpaLen)
    (hpc : t.pc = .find index) (hpop : (p h).isSome) (hnone : ∀ i, index ≤ i → i < h → p i = none)
    (hback : h ≤ index → index < m.gpaLen ∧ m.groupAt h = m.groupAt index) (hend : h < t.indexEnd) :
    Fills m p f vs { t with pc := .lock h } := by
  obtain ⟨w, done, rfl, hindexEnd, hdone, hbehind⟩ := hf.views
  rw [hpc] at hbehind
  obtain ⟨hcopied, hreached⟩ := hbehind
  refine ⟨hf.sub, hf.reached, hf.uncut, hf.inside, w, done, rfl, hindexEnd, hdone, fun i hi hih hp => ?_, ?_⟩
  · by_cases hidx : i < index
    · exact hcopied i hi hidx hp
    · rw [hnone i (not_lt.mp hidx) hih] at hp
      cases hp
  · have hhlen := hlen h hpop
    have hstart := viewStart_lt (hf.inside w (by simp))
    have hview : ∀ k, m.indexOf w.vmStart ≤ k → k < m.indexEnd w.vmEnd → k < m.gpaLen →
        m.groupAt k = m.groupAt h → m.Reached [w] h :=
      fun k hk hk' hklen hat => ⟨hhlen, k, hklen, hat, w, List.mem_singleton_self w, hk, hk'⟩
    by_cases hin : m.indexOf w.vmStart ≤ h
    · exact hview h hin (hindexEnd ▸ hend) hhlen rfl
    rw [not_le] at hin
    by_cases hidx : index < m.indexOf w.vmStart
    · -- the walk is still in front of the view, in a group that reaches into it
      by_cases hle : h ≤ index
      · exact (hreached hidx).congr hhlen (hback hle).2
      · exact (hreached hidx).between hm (not_le.mp hle).le hin.le
    · -- the block begins in front of the view
      rw [not_lt] at hidx
      obtain ⟨hidxlen, hat⟩ := hback (hin.le.trans hidx)
      obtain ⟨hklen, hkat⟩ := Backing.groupAt_between hm hhlen hidxlen hat hin.le hidx
      exact hview _ le_rfl hstart hklen hkat

/-- The block whose head is at `h` is copied. -/
theorem copied {pos : Slot} {n : ℕ} (hf : Fills m p f vs t) (hpc : t.pc = .lock h)
    (hblock : ∀ j < n, p (h + j) = some ⟨pos.group, pos.member + j⟩)
    (hgroup : ∀ j < n, h + j < m.gpaLen ∧ m.groupAt (h + j) = m.groupAt h) :
    Fills m p (fun i => if h ≤ i ∧ i < h + n ∧ f i = none then some ⟨pos.group, pos.member + (i - h)⟩
      else f i) vs { t with pc := .next h pos } := by
  obtain ⟨w, done, rfl, hindexEnd, hdone, hbehind⟩ := hf.views
  rw [hpc] at hbehind
  obtain ⟨hcopied, hreached⟩ := hbehind
  set f' : ℕ → Option Slot := fun i =>
    if h ≤ i ∧ i < h + n ∧ f i = none then some ⟨pos.group, pos.member + (i - h)⟩ else f i with hf'
  have hmono : ∀ i, (f i).isSome → (f' i).isSome := by
    intro i hi
    simp only [hf']
    split_ifs
    · rfl
    · exact hi
  refine ⟨fun i x hx => ?_, fun i x hx => ?_, hf.uncut, hf.inside, w, done, rfl, hindexEnd, ?_, ?_, hreached⟩
  · simp only [hf'] at hx
    split_ifs at hx with hin
    · have hslot := hblock (i - h) (by omega)
      rw [Nat.add_sub_cancel' hin.1] at hslot
      exact hslot.trans hx
    · exact hf.sub i x hx
  · simp only [hf'] at hx
    split_ifs at hx with hin
    · obtain ⟨hlen, hat⟩ := hgroup (i - h) (by omega)
      rw [Nat.add_sub_cancel' hin.1] at hlen hat
      exact (hreached.congr hlen hat).mono fun v hv => List.mem_singleton.mp hv ▸ List.mem_cons_self ..
    · exact hf.reached i x hx
  · exact fun v hv i hi hp => hmono i (hdone v hv i hi hp)
  · exact fun i hi hih hp => hmono i (hcopied i hi hih hp)

/-- The walk steps over slots that are copied. -/
theorem stepOver {pos : Slot} {n : ℕ} (hf : Fills m p f vs t) (hm : m.Valid) (hpc : t.pc = .next h pos)
    (hblock : ∀ j < n, (f (h + j)).isSome) : Fills m p f vs { t with pc := .find (h + n) } := by
  obtain ⟨w, done, rfl, hindexEnd, hdone, hbehind⟩ := hf.views
  rw [hpc] at hbehind
  obtain ⟨hcopied, hreached⟩ := hbehind
  refine ⟨hf.sub, hf.reached, hf.uncut, hf.inside, w, done, rfl, hindexEnd, hdone, fun i hi hin hp => ?_, ?_⟩
  · by_cases hih : i < h
    · exact hcopied i hi hih hp
    · have hsome := hblock (i - h) (by omega)
      rwa [Nat.add_sub_cancel' (not_lt.mp hih)] at hsome
  · exact fun hfront => hreached.between hm (Nat.le_add_right _ _) hfront.le

/-- The walk of a view has come to its end. -/
theorem viewDone (hf : Fills m p f vs t) (hpc : t.pc = .find index)
    (hnone : ∀ i, index ≤ i → i < t.indexEnd → p i = none) :
    ∀ v ∈ vs, ∀ i, m.InView v i → (p i).isSome → (f i).isSome := by
  obtain ⟨w, done, rfl, hindexEnd, hdone, hbehind⟩ := hf.views
  rw [hpc] at hbehind
  obtain ⟨hcopied, -⟩ := hbehind
  intro v hv i hi hp
  rcases List.mem_cons.mp hv with rfl | hv
  · by_cases hidx : i < index
    · exact hcopied i hi hidx hp
    · rw [hnone i (not_lt.mp hidx) (hindexEnd ▸ hi.2)] at hp
      cases hp
  · exact hdone v hv i hi hp

/-- The next view is opened. -/
theorem nextView {v : Vmr} {rest : List Vmr} (hf : Fills m p f vs t) (hrest : t.rest = v :: rest)
    (hall : ∀ v ∈ vs, ∀ i, m.InView v i → (p i).isSome → (f i).isSome) :
    Fills m p f (v :: vs) ⟨t.parent, m.indexEnd v.vmEnd, .find (m.indexOf v.vmStart), rest⟩ := by
  have hmem : ∀ w, w ∈ v :: vs ++ rest ↔ w ∈ vs ++ t.rest := by
    intro w
    rw [hrest]
    simp only [List.mem_append, List.mem_cons, List.cons_append]
    tauto
  refine ⟨hf.sub, fun i x hx => (hf.reached i x hx).mono fun w hw => List.mem_cons_of_mem _ hw, ?_,
    fun w hw => hf.inside w ((hmem w).mp hw), v, vs, rfl, rfl, hall, fun i hi hlt => ?_, fun hlt => ?_⟩
  · simpa only [hmem] using hf.uncut
  · exact absurd hi.1 (not_le.mpr hlt)
  · exact absurd hlt (lt_irrefl _)

/-- At the end the child has whole groups. -/
theorem whole (hf : Fills m p f vs t) (hrest : t.rest = [])
    (hall : ∀ v ∈ vs, ∀ i, m.InView v i → (p i).isSome → (f i).isSome) {i j : ℕ} {x y : Slot}
    (hx : f i = some x) (hy : p j = some y) (hat : m.groupAt j = m.groupAt i)
    (hp : ∀ k, m.groupAt k = m.groupAt i → k < m.gpaLen → (p k).isSome) : f j = some y := by
  obtain ⟨-, k, hk, hkat, w, hw, hin⟩ := hf.reached i x hx
  obtain ⟨v, hv, hvin⟩ := hf.uncut k j (hkat.trans hat.symm) (hp k hkat hk)
    ⟨w, List.mem_append_left _ hw, hin⟩
  rw [hrest, List.append_nil] at hv
  have hsome := hall v hv j hvin (by rw [hy]; rfl)
  obtain ⟨z, hz⟩ := Option.isSome_iff_exists.mp hsome
  rw [hz, ← hy, hf.sub j z hz]

end Fills

end Emp
